import CodeSage.Storage.Overlay
import CodeSage.Storage.StructuralCorrect

/-!
# CodeSage.Storage.OverlayCorrect

The overlay against reindexing. Each replacement extends the views by the rows that writing it would add
to the tables, and the views begin as the tables without their dirty files: an installed overlay has the
content of a reindex. The ids the views number rows with lie above those of the index, and a dirty file
that keeps its id is no longer in the view.
-/

namespace CodeSage
namespace Storage

open Lib.Script

section Numbers

variable {α β : Type}

theorem le_overlayMaxId {ids : List Int} {id : Int} (h : id ∈ ids) : id ≤ overlayMaxId ids := by
  rw [overlayMaxId]
  cases hmax : ids.max? with
  | none =>
    rw [List.max?_eq_none_iff.mp hmax] at h
    cases h
  | some m => exact (List.max?_eq_some_iff.mp hmax).2 id h

theorem nextId_ok {n m : Int} (h : nextId n = .ok m) : m = n + 1 := by
  rw [nextId] at h
  split at h
  · cases h
    rfl
  · cases h

/-- The rows are numbered above `lo`, up to the counter. -/
structure Numbered (lo : Int) (rows : List (Row Int α)) (n : Int) : Prop where
  le : lo ≤ n
  between : ∀ r ∈ rows, lo < r.id ∧ r.id ≤ n
  nodup : (rows.map (·.id)).Nodup

theorem numbered_nil (lo : Int) : Numbered lo ([] : List (Row Int α)) lo := ⟨Int.le_refl _, nofun, List.nodup_nil⟩

/-- What a loop of numbered inserts has done: the rows of the items, in order, for the file `id`. -/
def Grown (lo id : Int) (cols : β → Except Failure α) (rows₀ : List (Row Int α)) (done : List β)
    (rows : List (Row Int α)) (n : Int) : Prop :=
  ∃ cs, Appends id cs rows₀ rows ∧ List.Forall₂ (fun x c => cols x = .ok c) done cs ∧ Numbered lo rows n

variable {lo id n n' : Int} {cols : β → Except Failure α} {rows₀ rows rows' : List (Row Int α)} {done : List β}

theorem Grown.start (h : Numbered lo rows n) : Grown lo id cols rows [] rows n := ⟨[], .nil, .nil, h⟩

theorem Grown.step {x : β} (h : Grown lo id cols rows₀ done rows n)
    (hins : numberedInsert cols id x rows n = .ok (rows', n')) : Grown lo id cols rows₀ (done ++ [x]) rows' n' := by
  obtain ⟨cs, happ, hcols, hnum⟩ := h
  rw [numberedInsert] at hins
  cases hid : nextId n with
  | error e => simp [hid, Except.bind] at hins
  | ok m =>
    cases hx : cols x with
    | error e => simp [hid, hx, Except.bind] at hins
    | ok c =>
      simp only [hid, hx, Except.bind, insertRow] at hins
      split at hins
      · cases hins
      · have hm := nextId_ok hid
        cases hins
        refine ⟨cs ++ [c], happ.snoc rfl, List.rel_append hcols (.cons hx .nil), ?_⟩
        exact {
          le := by have := hnum.le; omega
          between := by
            intro r hr
            have := hnum.le
            obtain hr | hr := List.mem_append.mp hr
            · have := hnum.between r hr
              omega
            · rw [List.mem_singleton.mp hr]
              exact ⟨by simp only; omega, Int.le_refl _⟩
          nodup := by
            rw [List.map_append]
            refine List.Nodup.append hnum.nodup (List.nodup_singleton _) ?_
            simp only [List.map_cons, List.map_nil, List.disjoint_singleton]
            intro hmem
            obtain ⟨r, hr, heq⟩ := List.mem_map.mp hmem
            have := (hnum.between r hr).2
            omega }

/-- Ids of the index and ids of the overlay never meet. -/
theorem nodup_numbered {main : List (Row Int α)} (hmain : (main.map (·.id)).Nodup) {p : Row Int α → Bool}
    (h : Numbered (overlayMaxId (main.map (·.id))) rows n) : ((main.filter p ++ rows).map (·.id)).Nodup := by
  rw [List.map_append]
  refine List.Nodup.append (hmain.sublist (List.filter_sublist.map _)) h.nodup ?_
  intro x hx hy
  obtain ⟨r, hr, rfl⟩ := List.mem_map.mp hx
  obtain ⟨s, hs, heq⟩ := List.mem_map.mp hy
  have hle := le_overlayMaxId (List.mem_map_of_mem (f := (·.id)) (List.mem_of_mem_filter hr))
  have hlt := (h.between s hs).1
  omega

end Numbers

section Columns

variable {J : Type} {toJson : J → Option String}

theorem serialize_ok {value : J} {text : String} (h : serialize toJson value = .ok text) : toJson value = some text := by
  rw [serialize] at h
  split at h
  · cases h
    assumption
  · cases h

/-- The overlay binds the values `insert_symbols` binds. -/
theorem symbolCols_of_overlay {path : String} {s : Symbol J} {c : SymbolCols}
    (h : overlaySymbolCols toJson path s = .ok c) : symbolCols toJson s = .ok c := by
  rw [overlaySymbolCols] at h
  split at h
  · cases h
  · cases hr : serialize toJson s.rationale with
    | error e => simp [hr, Except.bind] at h
    | ok text =>
      simp only [hr, Except.bind] at h
      rw [symbolCols, serialize_ok hr]
      exact h

theorem refCols_of_overlay {path : String} {r : Reference} {c : RefCols} (h : overlayRefCols path r = .ok c) :
    refCols r = .ok c := by
  rw [overlayRefCols] at h
  split at h
  · cases h
  · exact h

theorem length_fpToBlob (fp : List UInt64) : (fpToBlob fp).length = 8 * fp.length := by
  induction fp with
  | nil => rfl
  | cons x fp ih =>
    have hx : (leBytes x).length = 8 := by simp [leBytes]
    rw [fpToBlob, List.flatMap_cons, List.length_append, hx]
    rw [fpToBlob] at ih
    rw [ih, List.length_cons]
    omega

theorem fingerprintCols_of_overlay {f : FingerprintInput} {c : FingerprintCols}
    (h : overlayFingerprintCols f = .ok c) : fingerprintCols f = .ok c := by
  rw [overlayFingerprintCols] at h
  split at h
  · cases h
  · rename_i hlen
    rw [fingerprintCols, if_pos]
    · exact h
    · have := length_fpToBlob f.fp
      omega

end Columns

section Loops

variable {J : Type} {toJson : J → Option String} {now : Int} {main : Tables} {w w' : Work} {lo : Int} {path : String}

theorem map_ok {ε α β : Type} {x : Except ε α} {f : α → β} {y : β} (h : x.map f = .ok y) :
    ∃ a, x = .ok a ∧ f a = y := by
  cases x with
  | error e => cases h
  | ok a =>
    cases h
    exact ⟨a, rfl, rfl⟩

theorem bind_ok {ε α β : Type} {x : Except ε α} {f : α → Except ε β} {y : β} (h : x.bind f = .ok y) :
    ∃ a, x = .ok a ∧ f a = .ok y := by
  cases x with
  | error e => cases h
  | ok a => exact ⟨a, rfl, h⟩

theorem symbols_loop {symbols : List (Symbol J)} (h : exec (symbols.map (insertSymbol toJson path)) w = .ok w')
    (hnum : Numbered lo w.temp.tables.symbols w.symbolId) :
    ∃ rows n, w' = w.setSymbols rows n
      ∧ Grown lo w.current (overlaySymbolCols toJson path) w.temp.tables.symbols symbols rows n := by
  refine exec_map_ok (R := fun done m => ∃ rows n, m = w.setSymbols rows n
    ∧ Grown lo w.current (overlaySymbolCols toJson path) w.temp.tables.symbols done rows n) h
    ⟨_, _, rfl, .start hnum⟩ ?_
  rintro done x m m' ⟨rows, n, rfl, hgrown⟩ hx
  obtain ⟨⟨rows', n'⟩, hins, rfl⟩ := map_ok hx
  exact ⟨rows', n', rfl, hgrown.step hins⟩

theorem references_loop {references : List Reference} (h : exec (references.map (insertReference path)) w = .ok w')
    (hnum : Numbered lo w.temp.tables.refs w.referenceId) :
    ∃ rows n, w' = w.setRefs rows n
      ∧ Grown lo w.current (overlayRefCols path) w.temp.tables.refs references rows n := by
  refine exec_map_ok (R := fun done m => ∃ rows n, m = w.setRefs rows n
    ∧ Grown lo w.current (overlayRefCols path) w.temp.tables.refs done rows n) h
    ⟨_, _, rfl, .start hnum⟩ ?_
  rintro done x m m' ⟨rows, n, rfl, hgrown⟩ hx
  obtain ⟨⟨rows', n'⟩, hins, rfl⟩ := map_ok hx
  exact ⟨rows', n', rfl, hgrown.step hins⟩

theorem fingerprints_loop {fps : List FingerprintInput} (h : exec (fps.map insertFingerprint) w = .ok w')
    (hnum : Numbered lo w.temp.tables.symbolFingerprints w.fingerprintId) :
    ∃ rows n, w' = w.setFingerprints rows n
      ∧ Grown lo w.current overlayFingerprintCols w.temp.tables.symbolFingerprints fps rows n := by
  refine exec_map_ok (R := fun done m => ∃ rows n, m = w.setFingerprints rows n
    ∧ Grown lo w.current overlayFingerprintCols w.temp.tables.symbolFingerprints done rows n) h
    ⟨_, _, rfl, .start hnum⟩ ?_
  rintro done x m m' ⟨rows, n, rfl, hgrown⟩ hx
  obtain ⟨⟨rows', n'⟩, hins, rfl⟩ := map_ok hx
  exact ⟨rows', n', rfl, hgrown.step hins⟩

theorem distinctKeys_snoc {κ : Type} {keys : List (Option κ)} {k : Option κ} (h : DistinctKeys keys)
    (hk : k.isSome = true → ∀ a ∈ keys, a ≠ k) : DistinctKeys (keys ++ [k]) := by
  refine List.pairwise_append.mpr ⟨h, List.pairwise_singleton _ _, fun a ha b hb hsome => ?_⟩
  rw [List.mem_singleton.mp hb] at hsome ⊢
  exact hk hsome a ha

/-- The unique index of the overlay refuses a second row under one key. -/
theorem bindings_loop {bindings : List (BoundReference J)} (h : exec (bindings.map (insertBinding toJson)) w = .ok w') :
    ∃ rows cs, w' = w.setBindings rows ∧ Appends w.current cs w.temp.tables.pythonBindings rows
      ∧ List.Forall₂ (fun x c => bindingCols toJson x = .ok c) bindings cs ∧ DistinctKeys (cs.map bindingKey) := by
  refine exec_map_ok (R := fun done m => ∃ rows cs, m = w.setBindings rows
    ∧ Appends w.current cs w.temp.tables.pythonBindings rows
    ∧ List.Forall₂ (fun x c => bindingCols toJson x = .ok c) done cs ∧ DistinctKeys (cs.map bindingKey)) h
    ⟨_, [], rfl, .nil, .nil, List.Pairwise.nil⟩ ?_
  rintro done x m m' ⟨rows, cs, rfl, happ, hcols, hkeys⟩ hx
  obtain ⟨c, hc, hins⟩ := bind_ok hx
  obtain ⟨rows', hins, rfl⟩ := map_ok hins
  rw [insertRow] at hins
  split at hins
  · cases hins
  · rename_i hfree
    cases hins
    refine ⟨_, cs ++ [c], rfl, happ.snoc rfl, List.rel_append hcols (.cons hc .nil), ?_⟩
    rw [List.map_append]
    refine distinctKeys_snoc hkeys fun hsome a ha heq => hfree ?_
    obtain ⟨d, hd, rfl⟩ := List.mem_map.mp ha
    obtain ⟨new, rfl, hnew, rfl⟩ := happ
    obtain ⟨row, hrow, rfl⟩ := List.mem_map.mp hd
    refine List.any_eq_true.mpr ⟨row, List.mem_append_right _ hrow, ?_⟩
    simp [sameKey, hnew row hrow, heq, hsome, Work.setBindings]

theorem boundaries_loop {tags : List String} (h : exec (tags.map insertBoundary) w = .ok w') :
    w' = w.setBoundaries
      (tags.foldl (fun rows tag => insertOrIgnore rows ⟨(), w.current, tag⟩) w.temp.tables.fileTrustBoundaries) := by
  refine exec_map_ok (R := fun done m => m = w.setBoundaries
    (done.foldl (fun rows tag => insertOrIgnore rows ⟨(), w.current, tag⟩) w.temp.tables.fileTrustBoundaries)) h
    rfl ?_
  rintro done x m m' rfl hx
  cases hx
  rw [List.foldl_append]
  rfl

/-- The id a replacement goes under, and its file row. -/
theorem file_statements {r : Replacement J}
    (h : exec [checkpoint, chooseId main r.file.path, insertFile now r, insertSource r] w = .ok w') :
    ∃ id n sources, w' = { w with fileId := n, current := id, temp := { w.temp with
        sources := sources
        tables := { w.temp.tables with files := w.temp.tables.files ++ [⟨id, writtenFile now r⟩] } } }
      ∧ id ∉ fileIds w.temp.tables.files ∧ r.file.path ∉ filePaths w.temp.tables.files ∧ w.fileId ≤ n
      ∧ (idOf main r.file.path = some id ∨ idOf main r.file.path = none ∧ id = w.fileId + 1) := by
  obtain ⟨m, hm, h⟩ := exec_cons_ok h
  cases hm
  obtain ⟨m, hm, h⟩ := exec_cons_ok h
  have hchosen : ∃ id n, m = { w with fileId := n, current := id } ∧ w.fileId ≤ n
      ∧ (idOf main r.file.path = some id ∨ idOf main r.file.path = none ∧ id = w.fileId + 1) := by
    rw [chooseId] at hm
    split at hm
    · rename_i id hid
      cases hm
      exact ⟨id, w.fileId, rfl, Int.le_refl _, .inl hid⟩
    · rename_i hnone
      obtain ⟨id, hid, rfl⟩ := map_ok hm
      have := nextId_ok hid
      exact ⟨id, id, rfl, by omega, .inr ⟨hnone, this⟩⟩
  obtain ⟨id, n, rfl, hn, hcases⟩ := hchosen
  obtain ⟨m, hm, h⟩ := exec_cons_ok h
  rw [insertFile] at hm
  split at hm
  · cases hm
  · rename_i hfree
    cases hm
    obtain ⟨m, hm, h⟩ := exec_cons_ok h
    rw [insertSource] at hm
    split at hm
    · cases hm
    · cases hm
      cases h
      simp only [Bool.or_eq_true, decide_eq_true_eq, not_or] at hfree
      exact ⟨id, n, _, rfl, hfree.1, hfree.2, hn, hcases⟩

end Loops

section Replacements

variable {J : Type} {toJson : J → Option String} {now : Int} {main : Tables} {w w' : Work} {ids : List Int}

/-- What the views show: the index without the files of the ids, then the overlay. -/
def overlaid (main : Tables) (ids : List Int) (added : Tables) : Tables where
  files := (main.without ids).files ++ added.files
  symbols := (main.without ids).symbols ++ added.symbols
  refs := (main.without ids).refs ++ added.refs
  pythonBindings := (main.without ids).pythonBindings ++ added.pythonBindings
  symbolFingerprints := (main.without ids).symbolFingerprints ++ added.symbolFingerprints
  fileTrustBoundaries := (main.without ids).fileTrustBoundaries ++ added.fileTrustBoundaries

/-- The counters stand at or above every id of the index, and the rows of the overlay between. -/
structure Progress (main : Tables) (ids : List Int) (w : Work) : Prop where
  sound : (overlaid main ids w.temp.tables).Sound
  counter : overlayMaxId (fileIds main.files) ≤ w.fileId
  symbols : Numbered (overlayMaxId (main.symbols.map (·.id))) w.temp.tables.symbols w.symbolId
  refs : Numbered (overlayMaxId (main.refs.map (·.id))) w.temp.tables.refs w.referenceId
  symbolFingerprints :
    Numbered (overlayMaxId (main.symbolFingerprints.map (·.id))) w.temp.tables.symbolFingerprints w.fingerprintId

theorem Appends.prepend {ι α : Type} {id : Int} {cs : List α} {rows rows' : List (Row ι α)}
    (h : Appends id cs rows rows') (front : List (Row ι α)) : Appends id cs (front ++ rows) (front ++ rows') := by
  obtain ⟨new, rfl, hnew, hcols⟩ := h
  exact ⟨new, by simp, hnew, hcols⟩

theorem idOf_eq_some (hmain : main.Sound) {f : FileRow} (hf : f ∈ main.files) : idOf main f.cols.path = some f.id := by
  cases hfind : main.files.find? (·.cols.path = f.cols.path) with
  | none => simpa using List.find?_eq_none.mp hfind f hf
  | some g =>
    have hg := List.mem_of_find?_eq_some hfind
    have hpath : g.cols.path = f.cols.path := by simpa using List.find?_some hfind
    have heq : g = f := List.inj_on_of_nodup_map hmain.paths hg hf hpath
    rw [idOf, hfind, heq]
    rfl

/-- A replacement of a dirty path extends the views by what writing it adds. -/
theorem replacement_extends {r : Replacement J} (hmain : main.Sound)
    (hdirty : ∀ id, idOf main r.file.path = some id → id ∈ ids) (hp : Progress main ids w)
    (h : exec (replacementScript toJson now main r) w = .ok w') :
    ∃ p id, Writes toJson now r p ∧ DistinctKeys (p.pythonBindings.map bindingKey)
      ∧ Extends (overlaid main ids w.temp.tables) (overlaid main ids w'.temp.tables) p id
      ∧ Progress main ids w' ∧ w'.temp.dirty = w.temp.dirty ∧ w'.temp.views = w.temp.views := by
  obtain ⟨w₅, h, htags⟩ := exec_append_ok h
  obtain ⟨w₄, h, hfps⟩ := exec_append_ok h
  obtain ⟨w₃, h, hbindings⟩ := exec_append_ok h
  obtain ⟨w₂, h, hrefs⟩ := exec_append_ok h
  obtain ⟨w₁, h, hsymbols⟩ := exec_append_ok h
  obtain ⟨id, n, sources, rfl, hid, hpath, hn, hchosen⟩ := file_statements h
  obtain ⟨symbols, ns, rfl, cs, happs, hcs, hnums⟩ := symbols_loop hsymbols hp.symbols
  obtain ⟨refs, nr, rfl, cr, happr, hcr, hnumr⟩ := references_loop hrefs hp.refs
  obtain ⟨bindings, cb, rfl, happb, hcb, hkeys⟩ := bindings_loop hbindings
  obtain ⟨fps, nf, rfl, cf, happf, hcf, hnumf⟩ := fingerprints_loop hfps hp.symbolFingerprints
  obtain rfl := boundaries_loop htags
  -- the id is that of a dirty file, or above those of the index
  have hclean : id ∉ fileIds (main.without ids).files := by
    intro hmem
    obtain ⟨f, hf, rfl⟩ := List.mem_map.mp hmem
    obtain ⟨hf, hnot⟩ := List.mem_filter.mp hf
    obtain hsome | ⟨-, hnew⟩ := hchosen
    · exact of_decide_eq_true hnot (hdirty f.id hsome)
    · have := le_overlayMaxId (List.mem_map_of_mem (f := (·.id)) hf)
      have := hp.counter
      simp only [fileIds] at *
      omega
  have hpathClean : r.file.path ∉ filePaths (main.without ids).files := by
    intro hmem
    obtain ⟨f, hf, heq⟩ := List.mem_map.mp hmem
    obtain ⟨hf, hnot⟩ := List.mem_filter.mp hf
    exact of_decide_eq_true hnot (hdirty f.id (heq ▸ idOf_eq_some hmain hf))
  have hfresh : id ∉ fileIds (overlaid main ids w.temp.tables).files := by
    simp only [overlaid, fileIds, List.map_append, List.mem_append, not_or]
    exact ⟨hclean, hid⟩
  have hboundaries : ∀ row ∈ w.temp.tables.fileTrustBoundaries, row.fileId ≠ id :=
    fun row hrow => hp.sound.fileTrustBoundaries.ne hfresh row (List.mem_append_right _ hrow)
  let p : Payload := ⟨writtenFile now r, cs, cr, cb, cf, distinctTags r.trustBoundaries⟩
  let added : Tables := ⟨w.temp.tables.files ++ [⟨id, writtenFile now r⟩], symbols, refs, bindings, fps,
    r.trustBoundaries.foldl (fun rows tag => insertOrIgnore rows ⟨(), id, tag⟩) w.temp.tables.fileTrustBoundaries⟩
  have hext : Extends (overlaid main ids w.temp.tables) (overlaid main ids added) p id := {
    fresh := hfresh
    freshPath := by
      simp only [overlaid, filePaths, List.map_append, List.mem_append, not_or]
      exact ⟨hpathClean, hpath⟩
    files := (List.append_assoc _ _ _).symm
    symbols := happs.prepend _
    refs := happr.prepend _
    pythonBindings := happb.prepend _
    symbolFingerprints := happf.prepend _
    fileTrustBoundaries := (appends_boundaries hboundaries r.trustBoundaries).prepend _
    symbolIds := nodup_numbered hmain.symbolIds hnums
    refIds := nodup_numbered hmain.refIds hnumr
    fingerprintIds := nodup_numbered hmain.fingerprintIds hnumf }
  refine ⟨p, id, ?_, hkeys, hext, ?_, rfl, rfl⟩
  · exact {
      file := rfl
      symbols := hcs.imp fun _ _ => symbolCols_of_overlay
      refs := hcr.imp fun _ _ => refCols_of_overlay
      pythonBindings := hcb
      symbolFingerprints := hcf.imp fun _ _ => fingerprintCols_of_overlay
      fileTrustBoundaries := rfl }
  · exact {
      sound := hext.sound hp.sound
      counter := Int.le_trans hp.counter hn
      symbols := hnums
      refs := hnumr
      symbolFingerprints := hnumf }

end Replacements

section Installed

variable {J : Type} {toJson : J → Option String} {now : Int} {main : Tables} {w w' : Work} {dirty : List String}
  {replacements : List (Replacement J)}

/-- The ids of the dirty files, as `__overlay_dirty` holds them. -/
def overlayIds (main : Tables) (dirty : List String) : List Int := dirty.filterMap (idOf main)

theorem idOf_some {path : String} {id : Int} (h : idOf main path = some id) :
    ∃ f ∈ main.files, f.id = id ∧ f.cols.path = path := by
  obtain ⟨f, hfind, rfl⟩ := Option.map_eq_some_iff.mp h
  exact ⟨f, List.mem_of_find?_eq_some hfind, rfl, by simpa using List.find?_some hfind⟩

theorem without_overlayIds (hmain : main.Sound) (dirty : List String) :
    main.without (overlayIds main dirty) = dirty.foldl removeFile main := by
  have hmem : ∀ x, x ∈ overlayIds main dirty ↔ x ∈ idsAt main dirty := by
    intro x
    rw [overlayIds, List.mem_filterMap, idsAt]
    constructor
    · rintro ⟨path, hpath, hid⟩
      obtain ⟨f, hf, rfl, rfl⟩ := idOf_some hid
      exact List.mem_map_of_mem (List.mem_filter.mpr ⟨hf, decide_eq_true hpath⟩)
    · intro h
      obtain ⟨f, hf, rfl⟩ := List.mem_map.mp h
      obtain ⟨hf, hpath⟩ := List.mem_filter.mp hf
      exact ⟨f.cols.path, of_decide_eq_true hpath, idOf_eq_some hmain hf⟩
  rw [foldl_removeFile hmain]
  simp only [Tables.without, hmem]

theorem dirty_loop (h : exec (dirty.map (insertDirty main)) w = .ok w') :
    w' = w.setDirty (w.temp.dirty ++ dirty.map fun path => (path, idOf main path)) := by
  refine exec_map_ok (R := fun done m => m = w.setDirty (w.temp.dirty ++ done.map fun path => (path, idOf main path)))
    h ?_ ?_
  · simp [Work.setDirty]
  · rintro done x m m' rfl hx
    rw [insertDirty] at hx
    split at hx
    · cases hx
    · cases hx
      simp [Work.setDirty]

theorem guards_ok {replaced : List String} (h : exec (replacementGuards dirty replaced replacements) w = .ok w') :
    (∀ r ∈ replacements, r.file.path ∈ dirty) ∧ (replacements.map (·.file.path)).Nodup
      ∧ ∀ r ∈ replacements, r.file.path ∉ replaced := by
  induction replacements generalizing replaced w with
  | nil => exact ⟨nofun, List.nodup_nil, nofun⟩
  | cons r rest ih =>
    obtain ⟨m, hm, h⟩ := exec_cons_ok h
    obtain ⟨m', hm', h⟩ := exec_cons_ok h
    rw [ensure] at hm hm'
    split at hm
    · split at hm'
      · rename_i hdirty hnew
        obtain ⟨hin, hnodup, hnot⟩ := ih h
        refine ⟨?_, ?_, ?_⟩
        · exact List.forall_mem_cons.mpr ⟨List.contains_iff_mem.mp hdirty, hin⟩
        · rw [List.map_cons, List.nodup_cons]
          refine ⟨fun hmem => ?_, hnodup⟩
          obtain ⟨s, hs, heq⟩ := List.mem_map.mp hmem
          exact hnot s hs (heq ▸ List.mem_cons_self)
        · refine List.forall_mem_cons.mpr ⟨by simpa using hnew, fun s hs hmem => ?_⟩
          exact hnot s hs (List.mem_cons_of_mem _ hmem)
      · cases hm'
    · cases hm

/-- What the loop over the replacements has added to the views. -/
def Added (toJson : J → Option String) (now : Int) (main : Tables) (dirty : List String)
    (done : List (Replacement J)) (w : Work) : Prop :=
  Progress main (overlayIds main dirty) w
    ∧ w.temp.dirty = dirty.map (fun path => (path, idOf main path)) ∧ w.temp.views = []
    ∧ ∃ payloads, List.Forall₂ (Writes toJson now) done payloads
      ∧ (∀ p ∈ payloads, DistinctKeys (p.pythonBindings.map bindingKey))
      ∧ (overlaid main (overlayIds main dirty) w.temp.tables).content
        = payloads.foldl (fun c p => c.append p.content) (main.without (overlayIds main dirty)).content

theorem Added.step {done : List (Replacement J)} {r : Replacement J} (hmain : main.Sound)
    (hr : r.file.path ∈ dirty) (h : Added toJson now main dirty done w)
    (hexec : exec (replacementScript toJson now main r) w = .ok w') :
    Added toJson now main dirty (done ++ [r]) w' := by
  obtain ⟨hp, hdirty, hviews, payloads, hw, hkeys, hcontent⟩ := h
  have hids : ∀ id, idOf main r.file.path = some id → id ∈ overlayIds main dirty :=
    fun id hid => List.mem_filterMap.mpr ⟨r.file.path, hr, hid⟩
  obtain ⟨p, id, hwr, hkey, hext, hp', hdirty', hviews'⟩ := replacement_extends hmain hids hp hexec
  refine ⟨hp', hdirty'.trans hdirty, hviews'.trans hviews, payloads ++ [p], ?_, ?_, ?_⟩
  · exact List.rel_append hw (.cons hwr .nil)
  · intro q hq
    obtain hq | hq := List.mem_append.mp hq
    · exact hkeys q hq
    · rw [List.mem_singleton.mp hq]
      exact hkey
  · rw [hext.content hp.sound, hcontent, List.foldl_append]
    rfl

theorem overlaid_empty (main : Tables) (ids : List Int) : overlaid main ids {} = main.without ids := by
  simp [overlaid]

theorem views_loop {tables : List TableName} (h : exec (tables.map createView) w = .ok w') :
    w' = { w with temp := { w.temp with views := w.temp.views ++ tables } } := by
  refine exec_map_ok (R := fun done m => m = { w with temp := { w.temp with views := w.temp.views ++ done } }) h
    (by simp) ?_
  rintro done x m m' rfl hx
  cases hx
  simp

/-- The state a complete installation leaves: the loop over the replacements, then the six views. -/
theorem populate_ok (hmain : main.Sound) (hin : ∀ r ∈ replacements, r.file.path ∈ dirty)
    (h : exec (populate toJson now main dirty replacements ++ [checkpoint]) {} = .ok w') :
    ∃ w, Added toJson now main dirty replacements w ∧ w'.temp = { w.temp with views := TABLES } := by
  unfold populate at h
  obtain ⟨w₇, h, hend⟩ := exec_append_ok h
  obtain ⟨w₆, h, hcheck⟩ := exec_append_ok h
  obtain ⟨w₅, h, hviews⟩ := exec_append_ok h
  obtain ⟨w₄, h, hloop⟩ := exec_append_ok h
  obtain ⟨w₃, h, hcounters⟩ := exec_append_ok h
  obtain ⟨w₂, h, hempty⟩ := exec_append_ok h
  obtain ⟨w₁, hcreate, hdirty⟩ := exec_append_ok h
  obtain rfl := Except.ok.inj hend
  obtain rfl := Except.ok.inj hcheck
  obtain rfl := Except.ok.inj hcreate
  obtain rfl := dirty_loop hdirty
  obtain rfl := Except.ok.inj hempty
  obtain rfl := Except.ok.inj hcounters
  obtain rfl := views_loop hviews
  have hadded : Added toJson now main dirty replacements w₅ := by
    refine exec_flatMap_ok (R := Added toJson now main dirty) hloop ?_
      fun done r m m' hr hm hexec => hm.step hmain (hin r hr) hexec
    refine ⟨⟨?_, Int.le_refl _, numbered_nil _, numbered_nil _, numbered_nil _⟩, rfl, rfl, [], .nil, nofun, ?_⟩
    · exact overlaid_empty main _ ▸ hmain.without _
    · exact congrArg Tables.content (overlaid_empty main _)
  refine ⟨w₅, hadded, ?_⟩
  rw [hadded.2.2.1]
  rfl

theorem dirtyIds_eq {temp : Temp} (h : temp.dirty = dirty.map fun path => (path, idOf main path)) :
    dirtyIds temp = overlayIds main dirty := by
  rw [dirtyIds, h, List.filterMap_map]
  rfl

/-- With all six views the connection shows the overlaid tables. -/
theorem visible_overlaid {c : Connection} {temp : Temp} (hviews : temp.views = TABLES) :
    Connection.visible { c with temp := some temp } = overlaid c.main (dirtyIds temp) temp.tables := by
  simp only [Connection.visible, shadow, hviews, overlaid, Tables.without]
  rfl

end Installed

section Results

variable {J : Type} {toJson : J → Option String} {now : Int}

def symbolIdentity (s : Symbol J) : Option ((String × String × String) × (Nat × Nat) × Nat × Nat) :=
  some ((s.name, s.qualifiedName, s.kind), (s.lineStart, s.lineEnd), s.colStart, s.colEnd)

def referenceIdentity (r : Reference) : Option (String × String × Nat × Nat) :=
  if r.kind = "route_handler" then none else some (r.toName, r.kind, r.line, r.col)

def fingerprintIdentity (f : FingerprintInput) : Option (String × String × Nat × Nat) :=
  some (f.name, f.kind, f.lineStart, f.lineEnd)

/-- No two rows of a replacement meet a unique index of the index's tables. Extraction removes such rows. -/
structure Replacement.Keyed (r : Replacement J) : Prop where
  symbols : DistinctKeys (r.symbols.map symbolIdentity)
  references : DistinctKeys (r.references.map referenceIdentity)
  fingerprints : DistinctKeys (r.fingerprints.map fingerprintIdentity)

theorem map_key_eq {α β κ : Type} {cols : β → Except Failure α} {key : α → κ} {identity : β → κ} {xs : List β}
    {cs : List α} (h : List.Forall₂ (fun x c => cols x = .ok c) xs cs)
    (hkey : ∀ x c, cols x = .ok c → key c = identity x) : cs.map key = xs.map identity := by
  induction h with
  | nil => rfl
  | cons hx _ ih => rw [List.map_cons, List.map_cons, ih, hkey _ _ hx]

theorem symbolCols_key {s : Symbol J} {c : SymbolCols} (h : symbolCols toJson s = .ok c) :
    symbolKey c = symbolIdentity s := by
  obtain ⟨arity, -, h⟩ := bind_ok h
  obtain ⟨parameters, -, rfl⟩ := map_ok h
  rfl

theorem refCols_key {r : Reference} {c : RefCols} (h : refCols r = .ok c) : refKey c = referenceIdentity r := by
  cases h
  rfl

theorem fingerprintCols_key {f : FingerprintInput} {c : FingerprintCols} (h : fingerprintCols f = .ok c) :
    fingerprintKey c = fingerprintIdentity f := by
  rw [fingerprintCols] at h
  split at h
  · cases h
    rfl
  · cases h

theorem Writes.keyed {r : Replacement J} {p : Payload} (h : Writes toJson now r p) (hr : r.Keyed)
    (hbindings : DistinctKeys (p.pythonBindings.map bindingKey)) : p.Keyed where
  symbols := map_key_eq h.symbols (fun _ _ => symbolCols_key) ▸ hr.symbols
  refs := map_key_eq h.refs (fun _ _ => refCols_key) ▸ hr.references
  pythonBindings := hbindings
  symbolFingerprints := map_key_eq h.symbolFingerprints (fun _ _ => fingerprintCols_key) ▸ hr.fingerprints

theorem keyed_of_forall₂ {replacements : List (Replacement J)} {payloads : List Payload}
    (hw : List.Forall₂ (Writes toJson now) replacements payloads) (hr : ∀ r ∈ replacements, r.Keyed)
    (hb : ∀ p ∈ payloads, DistinctKeys (p.pythonBindings.map bindingKey)) : ∀ p ∈ payloads, p.Keyed := by
  induction hw with
  | nil => exact nofun
  | cons h _ ih =>
    rw [List.forall_mem_cons] at hr hb ⊢
    exact ⟨h.keyed hr.1 hb.1, ih hr.2 hb.2⟩

/-- The paths of the dirty files are free for the replacements. -/
theorem nodup_paths_without {main : Tables} {dirty : List String} {paths : List String} (hmain : main.Sound)
    (hpaths : paths.Nodup) (hin : ∀ path ∈ paths, path ∈ dirty) :
    (filePaths (dirty.foldl removeFile main).files ++ paths).Nodup := by
  have hsound : (dirty.foldl removeFile main).Sound := foldl_removeFile hmain dirty ▸ hmain.without _
  refine List.Nodup.append hsound.paths hpaths fun path hold hnew => ?_
  rw [foldl_removeFile hmain] at hold
  obtain ⟨f, hf, rfl⟩ := List.mem_map.mp hold
  obtain ⟨hf, hnot⟩ := List.mem_filter.mp hf
  exact of_decide_eq_true hnot ((mem_idsAt hmain hf dirty).mpr (hin _ hnew))

/-- What an installation leaves. -/
def Installs (toJson : J → Option String) (pick : List Int → Int) (now : Int) (c : Connection) (dirty : List String)
    (replacements : List (Replacement J)) : Except Failure Unit × Connection → Prop
  | (.ok (), c') => ∃ t, reindex toJson pick now c.main dirty replacements = .ok t
    ∧ c'.visible.content = t.content ∧ c'.visible.Sound
  | (.error e, c') => e ≠ .rollback → c' = c

/-- An installed overlay shows the content of a reindex of the dirty files, under unique ids and with every
row in one file; a failed installation leaves the connection as it was, unless the rollback itself fails. -/
theorem overlay_shows_reindex (toJson : J → Option String) (pick : List Int → Int) (now : Int)
    (fails : Nat → Option Failure) (c : Connection) (dirty : List String) (replacements : List (Replacement J))
    (hpick : ∀ l, pick l ∉ l) (hmain : c.main.Sound) (hkeyed : ∀ r ∈ replacements, r.Keyed) :
    Installs toJson pick now c dirty replacements
      (installStructuralOverlay toJson now fails c dirty replacements) := by
  rw [installStructuralOverlay]
  simp only
  split
  · exact fun _ => rfl
  · rename_i hentered
    split
    · rename_i hresult
      have hguards := exec_of_run hentered
      obtain ⟨m, hguards, -⟩ := exec_append_ok hguards
      obtain ⟨m', -, hguards⟩ := exec_append_ok hguards
      obtain ⟨hin, hnodup, -⟩ := guards_ok hguards
      obtain ⟨w, ⟨hp, hdirty, -, payloads, hw, hbindings, hcontent⟩, htemp⟩ :=
        populate_ok hmain hin (exec_of_run hresult)
      have hfree : ∀ path ∈ replacements.map (·.file.path), path ∈ dirty := by
        intro path hpath
        obtain ⟨r, hr, rfl⟩ := List.mem_map.mp hpath
        exact hin r hr
      have hpaths := nodup_paths_without hmain hnodup hfree
      have hsound : (dirty.foldl removeFile c.main).Sound := without_overlayIds hmain dirty ▸ hmain.without _
      obtain ⟨t, hreindex, ht⟩ :=
        writeAll_content hpick hw (keyed_of_forall₂ hw hkeyed hbindings) hsound hpaths
      have hvisible : Connection.visible { c with temp := some { w.temp with views := TABLES } }
          = overlaid c.main (overlayIds c.main dirty) w.temp.tables := by
        rw [visible_overlaid rfl]
        exact congrArg (overlaid c.main · w.temp.tables) (dirtyIds_eq hdirty)
      refine ⟨t, hreindex, ?_, ?_⟩
      · rw [htemp, hvisible, hcontent, ht, without_overlayIds hmain]
      · rw [htemp, hvisible]
        exact hp.sound
    · split
      · exact fun h => absurd rfl h
      · split
        · exact fun h => absurd rfl h
        · exact fun _ => rfl

/-- The largest row id and one, as SQLite picks it. -/
def nextRowid (ids : List Int) : Int := overlayMaxId ids + 1

theorem nextRowid_unused (ids : List Int) : nextRowid ids ∉ ids := by
  intro h
  have := le_overlayMaxId h
  rw [nextRowid] at this
  omega

def file (path : String) : FileInfo := ⟨path, "rust", "hash", false⟩

/-- An index of one file with one symbol. -/
def indexed : Connection where
  main := {
    files := [⟨1, ⟨"a.rs", "rust", "old", 0, 0, none, false⟩⟩]
    symbols := [⟨1, 1, ⟨"f", "f", "function", 1, 2, 0, 1, "[]", none, false, none, none, none, none⟩⟩] }
  readOnly := true
  temp := none

theorem indexed_sound : indexed.main.Sound := by
  constructor <;> simp [indexed, fileIds, filePaths, Owned]

/-- A replacement with one reference. -/
def edited : Replacement Unit where
  file := file "a.rs"
  references := [⟨"a.rs", none, "g", "call", 1, 0, false⟩]
  interpretation := "v1"
  source := "g()"

theorem edited_keyed : ∀ r ∈ [edited], r.Keyed := by
  intro r hr
  rw [List.mem_singleton.mp hr]
  constructor <;> simp [edited, DistinctKeys]

theorem overlay_shows_reindex_edited :
    (installStructuralOverlay (fun _ => some "[]") 7 (fun _ => none) indexed ["a.rs"] [edited]).1.isOk = true
    ∧ Installs (fun _ => some "[]") nextRowid 7 indexed ["a.rs"] [edited]
      (installStructuralOverlay (fun _ => some "[]") 7 (fun _ => none) indexed ["a.rs"] [edited]) :=
  ⟨by decide, overlay_shows_reindex _ _ 7 _ indexed ["a.rs"] [edited] nextRowid_unused indexed_sound edited_keyed⟩

/-- A replacement whose reference comes twice. -/
def doubled : Replacement Unit := { edited with references := edited.references ++ edited.references }

/-- The content after the writers up to the trust boundaries, without the stamp. -/
def unstamped (c : Connection) (dirty : List String) (replacements : List (Replacement Unit)) : Option Content :=
  (writeAll (fun t r => (writeRows (fun _ => some "[]") nextRowid 7 t r).map (·.1)) replacements
    (dirty.foldl removeFile c.main)).toOption.map Tables.content

/-- The overlay stamps the file; it takes a row twice that the index refuses; and a rollback that fails
leaves the views behind. -/
theorem overlay_departs_from_reindex :
    ((installStructuralOverlay (fun _ => some "[]") 7 (fun _ => none) indexed ["a.rs"] [edited]).1.isOk = true
      ∧ some (installStructuralOverlay (fun _ => some "[]") 7 (fun _ => none) indexed ["a.rs"]
        [edited]).2.visible.content ≠ unstamped indexed ["a.rs"] [edited])
    ∧ ((installStructuralOverlay (fun _ => some "[]") 7 (fun _ => none) indexed ["a.rs"] [doubled]).1.isOk = true
      ∧ (reindex (fun _ => some "[]") nextRowid 7 indexed.main ["a.rs"] [doubled]).isOk = false)
    ∧ ∃ fails : Nat → Option Failure,
      (installStructuralOverlay (J := Unit) (fun _ => some "[]") 7 fails indexed ["a.rs"] []).1.isOk = false
      ∧ (installStructuralOverlay (J := Unit) (fun _ => some "[]") 7 fails indexed ["a.rs"] []).2.visible
        ≠ indexed.visible := by
  refine ⟨by decide, by decide, fun n => if n < 25 then none else some .world, ?_⟩
  decide

end Results

end Storage
end CodeSage
