import CodeSage.Graph.SemanticIndex
import CodeSage.Graph.StructuralHistory

/-!
# CodeSage.Graph.SemanticAttestation

The recorded fingerprint vouches for every stored vector. During a pass under `own` the rows that may still
belong to another setup are those of the paths it has not come to (`Working`); it records `own` only when there
are none left, and while there are any, no fingerprint is recorded.
-/

namespace CodeSage
namespace Graph

open Lib Lib.Prog
open CodeSage.Parser (FileInfo)

variable {ρ β φ ν : Type} {setup : Setup φ ν} {reads : Reads} {own : φ} {reuse : Bool}
  {s s' : Store ρ β φ ν}

/-- The vector of the row is that of its text under `own`. -/
def RowGood (setup : Setup φ ν) (own : φ) (c : ChunkRow φ ν) : Prop :=
  c.embeddedUnder = own ∧ c.vector = setup.embed own c.text

def Attested (setup : Setup φ ν) (s : Store ρ β φ ν) : Prop :=
  ∀ own, s.fingerprint = some own → ∀ c ∈ s.chunks, RowGood setup own c

/-- Vectors were reused only where the fingerprint of the pass was the recorded one. -/
def ReusesOk (s : Store ρ β φ ν) : Prop := ∀ r ∈ s.reuses, r.2 = some r.1

def Sound (setup : Setup φ ν) (s : Store ρ β φ ν) : Prop := Attested setup s ∧ ReusesOk s

/-- Rows may go, and so may the fingerprint. -/
theorem Sound.shrink (h : Sound setup s) (hchunks : ∀ c ∈ s'.chunks, c ∈ s.chunks) (hreuses : s'.reuses = s.reuses)
    (hfingerprint : s'.fingerprint = s.fingerprint ∨ s'.fingerprint = none) : Sound setup s' := by
  refine ⟨fun own hown c hc => ?_, fun r hr => h.2 r (hreuses ▸ hr)⟩
  rcases hfingerprint with hsame | hnone
  · exact h.1 own (hsame ▸ hown) c (hchunks c hc)
  · rw [hnone] at hown
    cases hown

section Foldl

variable (paths : List String)

theorem foldl_removeFile_rest (s : Store ρ β φ ν) : (∀ c ∈ (paths.foldl Store.removeFile s).chunks, c ∈ s.chunks) ∧
    (paths.foldl Store.removeFile s).reuses = s.reuses ∧
    (paths.foldl Store.removeFile s).fingerprint = s.fingerprint := by
  induction paths generalizing s with
  | nil => exact ⟨fun _ hc => hc, rfl, rfl⟩
  | cons path paths ih =>
    obtain ⟨hchunks, hreuses, hfingerprint⟩ := ih (s.removeFile path)
    exact ⟨fun c hc => List.mem_of_mem_filter (hchunks c hc), hreuses, hfingerprint⟩

theorem foldl_forgetSemantic_mem (s : Store ρ β φ ν) (c : ChunkRow φ ν) :
    c ∈ (paths.foldl Store.forgetSemantic s).chunks ↔ c ∈ s.chunks ∧ c.filePath ∉ paths := by
  induction paths generalizing s with
  | nil => simp
  | cons path paths ih =>
    rw [List.foldl_cons, ih, List.mem_cons, not_or, ← and_assoc]
    simp [Store.forgetSemantic, Store.deleteSemanticHash, Store.deleteChunks]

theorem foldl_forgetSemantic_rest (s : Store ρ β φ ν) : (paths.foldl Store.forgetSemantic s).reuses = s.reuses ∧
    (paths.foldl Store.forgetSemantic s).fingerprint = s.fingerprint := by
  induction paths generalizing s with
  | nil => exact ⟨rfl, rfl⟩
  | cons path paths ih => exact ih (s.forgetSemantic path)

theorem foldl_deleteChunks_mem (s : Store ρ β φ ν) (c : ChunkRow φ ν) :
    c ∈ (paths.foldl Store.deleteChunks s).chunks ↔ c ∈ s.chunks ∧ c.filePath ∉ paths := by
  induction paths generalizing s with
  | nil => simp
  | cons path paths ih =>
    rw [List.foldl_cons, ih, List.mem_cons, not_or, ← and_assoc]
    simp [Store.deleteChunks]

theorem foldl_deleteChunks_rest (s : Store ρ β φ ν) : (paths.foldl Store.deleteChunks s).reuses = s.reuses ∧
    (paths.foldl Store.deleteChunks s).fingerprint = s.fingerprint := by
  induction paths generalizing s with
  | nil => exact ⟨rfl, rfl⟩
  | cons path paths ih => exact ih (s.deleteChunks path)

theorem foldl_deleteSemanticHash_rest (s : Store ρ β φ ν) :
    (paths.foldl Store.deleteSemanticHash s).chunks = s.chunks ∧
    (paths.foldl Store.deleteSemanticHash s).reuses = s.reuses ∧
    (paths.foldl Store.deleteSemanticHash s).fingerprint = s.fingerprint := by
  induction paths generalizing s with
  | nil => exact ⟨rfl, rfl, rfl⟩
  | cons path paths ih => exact ih (s.deleteSemanticHash path)

end Foldl

section Rows

variable {selected : List FileInfo} {path : String}

theorem storedChunk_eq_some {text : String} {c : ChunkRow φ ν} (h : s.storedChunk path text = some c) :
    c ∈ s.chunks ∧ c.filePath = path ∧ c.text = text := by
  have hmem := List.mem_reverse.mp (List.mem_of_find?_eq_some h)
  obtain ⟨hmem, hpath⟩ := List.mem_filter.mp hmem
  exact ⟨hmem, of_decide_eq_true hpath, by simpa using List.find?_some h⟩

/-- A chunk that keeps a stored vector has the text of the stored row. -/
theorem chunkRow_good {cf : ChunkedFile} {chunk : String × Nat × Nat}
    (hrows : reuse = true → ∀ c ∈ s.chunks, RowGood setup own c) :
    RowGood setup own (chunkRow setup own reuse s cf chunk) := by
  unfold chunkRow
  split
  · next old hold =>
    rw [reusable] at hold
    split at hold
    · next hreuse =>
      obtain ⟨hmem, -, htext⟩ := storedChunk_eq_some hold
      obtain ⟨htag, hvector⟩ := hrows hreuse old hmem
      exact ⟨htag, by rw [hvector, htext]⟩
    · cases hold
  · exact ⟨rfl, rfl⟩

theorem chunkRow_path {cf : ChunkedFile} {chunk : String × Nat × Nat} :
    (chunkRow setup own reuse s cf chunk).filePath = cf.path := by
  unfold chunkRow
  split <;> rfl

theorem rowsFor_good (hrows : reuse = true → ∀ c ∈ s.chunks, RowGood setup own c) :
    ∀ c ∈ rowsFor setup own reuse s selected path, RowGood setup own c ∧ c.filePath = path := by
  intro c hc
  unfold rowsFor at hc
  split at hc
  · next cf hcf =>
    obtain ⟨chunk, -, rfl⟩ := List.mem_map.mp hc
    have hpath : cf.path = path := by simpa using List.find?_some hcf
    exact ⟨chunkRow_good hrows, chunkRow_path.trans hpath⟩
  · cases hc

end Rows

/-- The rows outside `pending` are embedded under `own`. -/
structure Working (setup : Setup φ ν) (own : φ) (recorded : Option φ) (pending : String → Prop) (s : Store ρ β φ ν) :
    Prop where
  fingerprint : s.fingerprint = recorded
  rows : ∀ c ∈ s.chunks, RowGood setup own c ∨ pending c.filePath
  reuses : ReusesOk s

/-- Rows of other setups stay only while nothing is recorded, and then no vector is reused. -/
def Allowed (own : φ) (reuse : Bool) (recorded : Option φ) (pending : String → Prop) : Prop :=
  (recorded = none ∧ reuse = false) ∨ (recorded = some own ∧ ∀ path, ¬ pending path)

namespace Working

variable {recorded : Option φ} {pending pending' : String → Prop}

theorem sound (h : Working setup own recorded pending s) (hallowed : Allowed own reuse recorded pending) :
    Sound setup s := by
  refine ⟨fun F hF c hc => ?_, h.reuses⟩
  rw [h.fingerprint] at hF
  rcases hallowed with ⟨hnone, -⟩ | ⟨hsome, hempty⟩
  · rw [hnone] at hF
    cases hF
  · obtain rfl : own = F := Option.some_inj.mp (hsome.symm.trans hF)
    exact (h.rows c hc).resolve_right (hempty _)

theorem mono (h : Working setup own recorded pending s) (hpending : ∀ path, pending path → pending' path) :
    Working setup own recorded pending' s :=
  ⟨h.fingerprint, fun c hc => (h.rows c hc).imp_right (hpending c.filePath), h.reuses⟩

theorem good (h : Working setup own recorded pending s) (hallowed : Allowed own reuse recorded pending)
    (hreuse : reuse = true) : ∀ c ∈ s.chunks, RowGood setup own c := by
  intro c hc
  rcases hallowed with ⟨-, hno⟩ | ⟨-, hempty⟩
  · rw [hreuse] at hno
    cases hno
  · exact (h.rows c hc).resolve_right (hempty _)

theorem log (h : Working setup own recorded pending s) (hallowed : Allowed own reuse recorded pending)
    {selected : List FileInfo} :
    Working setup own recorded pending (logReuses own (reusedChunks setup reuse s selected) s) := by
  refine ⟨h.fingerprint, h.rows, fun r hr => ?_⟩
  rcases List.mem_append.mp hr with hr | hr
  · exact h.reuses r hr
  · obtain ⟨c, hc, rfl⟩ := List.mem_map.mp hr
    rcases hallowed with ⟨-, hno⟩ | ⟨hsome, -⟩
    · simp [reusedChunks, reusable, hno] at hc
    · exact h.fingerprint.trans hsome

/-- Writing a file settles its path. -/
theorem write (h : Working setup own recorded pending s) {rows : String → List (ChunkRow φ ν)} {f : FileInfo}
    (hrows : ∀ c ∈ rows f.path, RowGood setup own c ∧ c.filePath = f.path) :
    Working setup own recorded (fun path => pending path ∧ path ≠ f.path) (writeSemantic rows s f) := by
  refine ⟨h.fingerprint, fun c hc => ?_, h.reuses⟩
  rcases List.mem_append.mp hc with hc | hc
  · obtain ⟨hc, hpath⟩ := List.mem_filter.mp hc
    exact (h.rows c hc).imp_right fun hp => ⟨hp, of_decide_eq_true hpath⟩
  · exact .inl (hrows c hc).1

theorem writeAll {rows : String → List (ChunkRow φ ν)} {files : List FileInfo}
    (h : Working setup own recorded pending s)
    (hrows : ∀ path, ∀ c ∈ rows path, RowGood setup own c ∧ c.filePath = path) :
    Working setup own recorded (fun path => pending path ∧ path ∉ files.map (·.path))
      (files.foldl (writeSemantic rows) s) := by
  induction files generalizing s pending with
  | nil => exact h.mono fun path hp => ⟨hp, List.not_mem_nil⟩
  | cons f files ih =>
    refine (ih (h.write (hrows f.path))).mono fun path hp => ⟨hp.1.1, ?_⟩
    rw [List.map_cons, List.mem_cons, not_or]
    exact ⟨hp.1.2, hp.2⟩

theorem purge (h : Working setup own recorded pending s) (paths : List String) :
    Working setup own recorded (fun path => pending path ∧ path ∉ paths) (paths.foldl Store.forgetSemantic s) := by
  obtain ⟨hreuses, hfingerprint⟩ := foldl_forgetSemantic_rest paths s
  refine ⟨hfingerprint.trans h.fingerprint, fun c hc => ?_, fun r hr => h.reuses r (hreuses ▸ hr)⟩
  obtain ⟨hc, hpath⟩ := (foldl_forgetSemantic_mem paths s c).mp hc
  exact (h.rows c hc).imp_right fun hp => ⟨hp, hpath⟩

end Working

section Loop

variable {recorded : Option φ} {pending : String → Prop} {selected batch files : List FileInfo}

theorem Allowed.mono {pending' : String → Prop} (h : Allowed own reuse recorded pending)
    (hpending : ∀ path, pending' path → pending path) : Allowed own reuse recorded pending' :=
  h.imp_right fun hempty => ⟨hempty.1, fun path hp => hempty.2 path (hpending path hp)⟩

theorem writeSemanticUpdates_working {rows : String → List (ChunkRow φ ν)} (hallowed : Allowed own reuse recorded pending)
    (hrows : ∀ path, ∀ c ∈ rows path, RowGood setup own c ∧ c.filePath = path)
    (h : Working setup own recorded pending s) :
    Ends (writeSemanticUpdates rows selected) s
      (fun _ s' => Working setup own recorded (fun path => pending path ∧ path ∉ selected.map (·.path)) s')
      (fun _ s' => Sound setup s') := by
  have hloop : Ends (writeSemanticUpdates rows selected) s
      (fun _ s' => Working setup own recorded
        (fun path => pending path ∧ path ∉ (slices COMMIT_BATCH_SIZE selected).flatten.map (·.path)) s')
      (fun _ s' => Sound setup s') := by
    refine Ends.each (I := fun (done : List (List FileInfo)) s' => Working setup own recorded
      (fun path => pending path ∧ path ∉ done.flatten.map (·.path)) s') (h.mono fun path hp => ⟨hp, by simp⟩) ?_
    intro done batch rest s' _ h'
    refine Ends.commit ((h'.writeAll hrows).mono fun path hp => ⟨hp.1.1, ?_⟩) fun _ =>
      h'.sound (hallowed.mono fun path hp => hp.1)
    simp only [List.flatten_append, List.map_append, List.mem_append, not_or, List.flatten_singleton]
    exact ⟨hp.1.2, hp.2⟩
  rwa [slices_flatten] at hloop

theorem embedAndWrite_working (hallowed : Allowed own reuse recorded pending)
    (h : Working setup own recorded pending s) :
    Ends (embedAndWrite setup own reuse selected) s
      (fun _ s' => Working setup own recorded (fun path => pending path ∧ path ∉ selected.map (·.path)) s')
      (fun _ s' => Sound setup s') := by
  rw [embedAndWrite]
  split
  · next hempty =>
    rw [List.isEmpty_iff] at hempty
    exact Ends.pure (h.mono fun path hp => ⟨hp, by simp [hempty]⟩)
  · refine Ends.state (Ends.update ?_)
    have hlog : Working setup own recorded pending (logReuses own (reusedChunks setup reuse s selected) s) :=
      h.log hallowed
    refine Ends.bind (Q := fun _ s' => Working setup own recorded pending s') ?_ fun _ s' h' => ?_
    · exact Ends.whenever (fun _ => Ends.call hlog fun _ => hlog.sound hallowed) fun _ => hlog
    · exact writeSemanticUpdates_working hallowed (fun path => rowsFor_good (h.good hallowed)) h'

/-- After a batch its paths hold rows of this setup, or none; without a purge, unreadable files keep theirs. -/
theorem processSemanticBatch_working {purge : Bool} {failed : List String}
    (hallowed : Allowed own reuse recorded pending) (h : Working setup own recorded pending s) :
    Ends (processSemanticBatch setup reads own reuse purge failed batch) s
      (fun _ s' => Working setup own recorded (fun path => pending path ∧ (purge = true → path ∉ batch.map (·.path))) s')
      (fun _ s' => Sound setup s') := by
  let unreadable := (batch.filter fun f => reads.unreadable f.path).map (·.path)
  let selected := (batch.filter fun f => !reads.unreadable f.path).map (readInfo reads)
  have hpurge : Ends (whenever (purge && !unreadable.isEmpty) (commit fun s => unreadable.foldl Store.forgetSemantic s) :
      Pass ρ β φ ν Unit) s
      (fun _ s' => Working setup own recorded (fun path => pending path ∧ (purge = true → path ∉ unreadable)) s')
      (fun _ s' => Sound setup s') := by
    refine Ends.whenever (fun _ => Ends.commit ((h.purge unreadable).mono fun path hp => ⟨hp.1, fun _ => hp.2⟩) fun _ =>
      h.sound hallowed) fun hno => h.mono fun path hp => ⟨hp, fun htrue => ?_⟩
    rw [htrue, Bool.true_and, Bool.not_eq_false', List.isEmpty_iff] at hno
    rw [hno]
    exact List.not_mem_nil
  refine Ends.bind hpurge fun _ s₁ h₁ => ?_
  refine Ends.bind (embedAndWrite_working (hallowed.mono fun path hp => hp.1) h₁) fun _ s₂ h₂ => Ends.pure ?_
  refine h₂.mono fun path hp => ⟨hp.1.1, fun htrue hmem => ?_⟩
  obtain ⟨f, hf, rfl⟩ := List.mem_map.mp hmem
  cases hread : reads.unreadable f.path with
  | true => exact hp.1.2 htrue (List.mem_map_of_mem (List.mem_filter.mpr ⟨hf, hread⟩))
  | false =>
    refine hp.2 ?_
    rw [List.map_map]
    exact List.mem_map.mpr ⟨f, List.mem_filter.mpr ⟨hf, by rw [hread]; rfl⟩, rfl⟩

theorem embedFiles_working {purge : Bool} {failed : List String} (hallowed : Allowed own reuse recorded pending)
    (h : Working setup own recorded pending s) :
    Ends (embedFiles setup reads own reuse purge failed files) s
      (fun _ s' => Working setup own recorded (fun path => pending path ∧ (purge = true → path ∉ files.map (·.path))) s')
      (fun _ s' => Sound setup s') := by
  have hcall : Ends (call : Pass ρ β φ ν Unit) s (fun _ s' => s' = s) (fun _ s' => Sound setup s') :=
    Ends.call rfl fun _ => h.sound hallowed
  have hloop : Ends (fold (processSemanticBatch setup reads own reuse purge) failed (slices COMMIT_BATCH_SIZE files)) s
      (fun _ s' => Working setup own recorded (fun path =>
        pending path ∧ (purge = true → path ∉ (slices COMMIT_BATCH_SIZE files).flatten.map (·.path))) s')
      (fun _ s' => Sound setup s') := by
    refine Ends.fold (I := fun (done : List (List FileInfo)) _ s' => Working setup own recorded
      (fun path => pending path ∧ (purge = true → path ∉ done.flatten.map (·.path))) s')
      (h.mono fun path hp => ⟨hp, fun _ => by simp⟩) ?_
    intro done batch rest acc s' _ h'
    refine (processSemanticBatch_working (hallowed.mono fun path hp => hp.1) h').mono (fun _ s'' h'' => ?_)
      fun _ _ he => he
    refine h''.mono fun path hp => ⟨hp.1.1, fun htrue => ?_⟩
    simp only [List.flatten_append, List.map_append, List.mem_append, not_or, List.flatten_singleton]
    exact ⟨hp.1.2 htrue, hp.2 htrue⟩
  rw [slices_flatten] at hloop
  refine Ends.bind hcall ?_
  rintro _ _ rfl
  refine Ends.bind hcall ?_
  rintro _ _ rfl
  exact hloop

end Loop

section Passes

variable {report : DiscoveryReport} {strategy : IndexStrategy} {files : List FileInfo}
  {recorded : Option φ}

theorem isStale_eq_false [DecidableEq φ] (h : isStale own s = false) : s.fingerprint = some own := by
  simpa [isStale] using h

/-- The rows that may be foreign when a pass starts to embed: those of the discovered paths, if the table is stale. -/
def startPending (stale retained : Bool) (report : DiscoveryReport) (path : String) : Prop :=
  stale = true ∧ path ∈ discoveredPaths report ∧ (retained = false → path ∉ report.failedPaths)

/-- Orphans go, so that the rows left belong to discovered paths. -/
theorem removeSemanticOrphans_working {before : Store ρ β φ ν} {stale : Bool} (hchunks : s.chunks = before.chunks)
    (hallowed : Allowed own reuse recorded fun _ => stale = true)
    (h : Working setup own recorded (fun _ => stale = true) s) :
    Ends (removeSemanticOrphans (orphanChunks before report) (orphanSemanticPaths before report)) s
      (fun _ s' => Working setup own recorded (startPending stale (retainedStaleRows stale before report) report) s')
      (fun _ s' => Sound setup s') := by
  have hpending : ∀ c ∈ before.chunks, stale = true → c.filePath ∉ orphanChunks before report →
      startPending stale (retainedStaleRows stale before report) report c.filePath := by
    intro c hc hstale hnot
    refine ⟨hstale, ?_, fun hretained hfailed => ?_⟩
    · by_contra hdiscovered
      exact hnot (List.mem_filter.mpr ⟨List.mem_map_of_mem hc, decide_eq_true hdiscovered⟩)
    · rw [retainedStaleRows, hstale, Bool.true_and] at hretained
      have hrow := List.any_eq_false.mp hretained c.filePath hfailed
      have hin : c.filePath ∈ before.chunks.map (·.filePath) := List.mem_map_of_mem hc
      simp [hin] at hrow
  refine Ends.whenever (fun _ => Ends.commit ?_ fun _ => h.sound hallowed) fun hno => ?_
  · generalize hmid : (orphanChunks before report).foldl Store.deleteChunks s = mid
    obtain ⟨hc', hr', hf'⟩ := foldl_deleteSemanticHash_rest (orphanSemanticPaths before report) mid
    obtain ⟨hr, hf⟩ := foldl_deleteChunks_rest (orphanChunks before report) s
    rw [hmid] at hr hf
    refine ⟨(hf'.trans hf).trans h.fingerprint, fun c hc => ?_, fun r hr₀ => h.reuses r ((hr'.trans hr) ▸ hr₀)⟩
    rw [hc', ← hmid] at hc
    obtain ⟨hc, hnot⟩ := (foldl_deleteChunks_mem _ s c).mp hc
    exact (h.rows c hc).imp_right fun hstale => hpending c (hchunks ▸ hc) hstale hnot
  · rw [Bool.or_eq_false_iff, Bool.not_eq_false', List.isEmpty_iff] at hno
    refine ⟨h.fingerprint, fun c hc => (h.rows c hc).imp_right fun hstale => ?_, h.reuses⟩
    exact hpending c (hchunks ▸ hc) hstale (by rw [hno.1]; exact List.not_mem_nil)

theorem embedSelected_working {pending : String → Prop} {selection : IndexStrategy}
    (hallowed : Allowed own reuse recorded pending) (h : Working setup own recorded pending s) :
    Ends (embedSelected setup reads own reuse report selection files) s
      (fun _ s' => Working setup own recorded
        (fun path => pending path ∧ (selection = .full → path ∉ files.map (·.path))) s')
      (fun _ s' => Sound setup s') := by
  rw [embedSelected]
  split
  · next hempty =>
    rw [List.isEmpty_iff] at hempty
    exact Ends.pure (h.mono fun path hp => ⟨hp, fun _ => by simp [hempty]⟩)
  · refine (embedFiles_working hallowed h).mono (fun _ s' h' => ?_) fun _ _ he => he
    exact h'.mono fun path hp => ⟨hp.1, fun hfull => hp.2 (decide_eq_true hfull)⟩

/-- Recording is sound where no foreign row is left. -/
theorem recordFingerprint_sound {pending : String → Prop} (hallowed : Allowed own reuse recorded pending)
    (h : Working setup own recorded pending s) (hnone : ∀ path, ¬ pending path) :
    Ends (recordFingerprint own) s (fun _ s' => Sound setup s' ∧ s'.chunks = s.chunks) (fun _ s' => Sound setup s') := by
  refine Ends.state ?_
  split
  · exact Ends.throw (h.sound hallowed)
  · refine Ends.commit ⟨⟨fun F hF c hc => ?_, h.reuses⟩, rfl⟩ fun _ => h.sound hallowed
    obtain rfl : own = F := Option.some_inj.mp hF
    exact (h.rows c hc).resolve_right (hnone _)

/-- A pass that comes to its end and retained no foreign rows leaves only rows of its own. -/
theorem semanticIndexDiscoveryReport_sound [DecidableEq φ] (hs : Sound setup s) :
    Ends (semanticIndexDiscoveryReport setup reads own report strategy) s
      (fun _ s' => Sound setup s' ∧ (retainedStaleRows (isStale own s) s report = false →
        ∀ c ∈ s'.chunks, RowGood setup own c)) (fun _ s' => Sound setup s') := by
  refine Ends.state ?_
  generalize hstale : isStale own s = stale
  let recorded := if (strategy = .full || stale) then none else s.fingerprint
  let reuse := strategy ≠ .full && !stale
  have hallowed : Allowed own reuse recorded fun _ => stale = true := by
    cases hclear : (strategy = .full || stale : Bool) with
    | true =>
      refine .inl ⟨by simp only [recorded, hclear, if_true], ?_⟩
      rcases Bool.or_eq_true_iff.mp hclear with hfull | hstale'
      · simp [reuse, of_decide_eq_true hfull]
      · simp [reuse, hstale']
    | false =>
      obtain ⟨-, rfl⟩ := Bool.or_eq_false_iff.mp hclear
      refine .inr ⟨?_, fun _ => Bool.false_ne_true⟩
      simp only [recorded, hclear, Bool.false_eq_true, if_false]
      exact isStale_eq_false hstale
  have hrows : ∀ c ∈ s.chunks, RowGood setup own c ∨ stale = true := by
    intro c hc
    cases stale with
    | true => exact .inr rfl
    | false => exact .inl (hs.1 own (isStale_eq_false hstale) c hc)
  refine Ends.bind (Q := fun _ s₁ => s₁.chunks = s.chunks ∧ Working setup own recorded (fun _ => stale = true) s₁) ?_ ?_
  · refine Ends.whenever (fun hclear => Ends.commit ⟨rfl, ?_, hrows, hs.2⟩ fun _ => hs) fun hclear => ⟨rfl, ?_, hrows, hs.2⟩
    · simp only [recorded, hclear, if_true]
      rfl
    · simp only [recorded, hclear, Bool.false_eq_true, if_false]
  rintro _ s₁ ⟨hchunks, h₁⟩
  refine Ends.bind (removeSemanticOrphans_working hchunks hallowed h₁) fun _ s₂ h₂ => ?_
  have hallowed₂ : Allowed own reuse recorded (startPending stale (retainedStaleRows stale s report) report) :=
    hallowed.mono fun _ hp => hp.1
  refine Ends.bind (embedSelected_working hallowed₂ h₂) fun failed s₃ h₃ => ?_
  have hallowed₃ : Allowed own reuse recorded fun path =>
      startPending stale (retainedStaleRows stale s report) report path ∧
        ((if stale then IndexStrategy.full else strategy) = .full → path ∉
          (selectSemanticFiles s report.files (if stale then .full else strategy)).map (·.path)) :=
    hallowed₂.mono fun _ hp => hp.1
  -- every discovered path was selected and settled, or could not be read and has no rows
  have hnone : retainedStaleRows stale s report = false → ∀ path,
      ¬ (startPending stale (retainedStaleRows stale s report) report path ∧
        ((if stale then IndexStrategy.full else strategy) = .full → path ∉
          (selectSemanticFiles s report.files (if stale then .full else strategy)).map (·.path))) := by
    rintro hretained path ⟨⟨rfl, hdiscovered, hfailed⟩, hsettled⟩
    exact hsettled rfl ((List.mem_append.mp hdiscovered).resolve_right (hfailed hretained))
  refine Ends.bind (Q := fun _ s₄ => Sound setup s₄ ∧ s₄.chunks = s₃.chunks) ?_ fun _ s₄ h₄ => ?_
  · refine Ends.whenever (fun hrecords => recordFingerprint_sound hallowed₃ h₃ ?_) fun _ => ⟨h₃.sound hallowed₃, rfl⟩
    rw [recordsFingerprint, Bool.and_eq_true, Bool.not_eq_true'] at hrecords
    exact hnone hrecords.1
  · refine Ends.pure ⟨h₄.1, fun hretained c hc => ?_⟩
    exact (h₃.rows c (h₄.2 ▸ hc)).resolve_right (hnone hretained _)

theorem semanticIndexDiscoveryReport_keepsSound [DecidableEq φ] :
    Keeps (Sound setup) (semanticIndexDiscoveryReport setup reads own report strategy : Pass ρ β φ ν _) :=
  fun _ hs => (semanticIndexDiscoveryReport_sound hs).mono (fun _ _ h => h.1) fun _ _ he => he

theorem semanticIndexFiles_sound [DecidableEq φ] :
    Keeps (Sound setup) (semanticIndexFiles setup reads own files : Pass ρ β φ ν _) := by
  rw [semanticIndexFiles]
  split
  · exact Keeps.pure
  refine Keeps.state fun s hs => ?_
  cases hstale : isStale own s with
  | true =>
    have hallowed : Allowed own false none fun _ => True := .inl ⟨rfl, rfl⟩
    refine Ends.bind (Q := fun _ s₁ => Working setup own none (fun _ => True) s₁) ?_ fun _ s₁ h₁ => ?_
    · exact Ends.commit ⟨rfl, fun _ _ => .inr trivial, hs.2⟩ fun _ => hs
    · exact (embedFiles_working hallowed h₁).mono (fun _ _ h' => h'.sound (hallowed.mono fun _ _ => trivial)) fun _ _ he => he
  | false =>
    have hown := isStale_eq_false hstale
    have hallowed : Allowed own true (some own) fun _ => False := .inr ⟨rfl, fun _ hp => hp⟩
    have h₁ : Working setup own (some own) (fun _ => False) s := ⟨hown, fun c hc => .inl (hs.1 own hown c hc), hs.2⟩
    refine Ends.bind (Ends.pure (Q := fun _ s₁ => s₁ = s) rfl) ?_
    rintro _ _ rfl
    exact (embedFiles_working hallowed h₁).mono (fun _ _ h' => h'.sound (hallowed.mono fun _ hp => hp.1)) fun _ _ he => he

theorem semanticRemoveFiles_sound (paths : List String) :
    Keeps (Sound setup) (semanticRemoveFiles paths : Pass ρ β φ ν Unit) := by
  refine Keeps.commit fun s hs => ?_
  obtain ⟨hreuses, hfingerprint⟩ := foldl_forgetSemantic_rest paths s
  exact hs.shrink (fun c hc => ((foldl_forgetSemantic_mem paths s c).mp hc).1) hreuses (.inl hfingerprint)

/-- Cut off anywhere, a rebuild leaves the old rows with the old fingerprint, or no fingerprint. -/
theorem openForModelRebuild_sound (model : String) (dim : Nat) :
    Keeps (Sound setup) (openForModelRebuild model dim : Pass ρ β φ ν Unit) := by
  refine Keeps.state fun s hs => ?_
  refine (Keeps.bind (Keeps.whenever fun _ => Keeps.commit fun s hs => ?_) fun _ => Keeps.bind (Keeps.commit fun s hs => ?_)
    fun _ => Keeps.bind (Keeps.commit fun s hs => ?_) fun _ => Keeps.commit fun s hs => ?_) s hs
  · exact hs.shrink (fun _ hc => by cases hc) rfl (.inr rfl)
  · exact hs.shrink (fun _ hc => hc) rfl (.inl rfl)
  · exact hs.shrink (fun _ hc => hc) rfl (.inl rfl)
  · exact hs.shrink (fun _ hc => hc) rfl (.inr rfl)

end Passes

section Structural

variable {x : Extraction ρ β} {report : DiscoveryReport} {strategy : IndexStrategy} {files : List FileInfo}
  {paths : List String}

theorem sound_removeFile (hs : Sound setup s) : Sound setup (paths.foldl Store.removeFile s) := by
  obtain ⟨hchunks, hreuses, hfingerprint⟩ := foldl_removeFile_rest paths s
  exact hs.shrink hchunks hreuses (.inl hfingerprint)

theorem foldl_removeStructuralFile_rest (paths : List String) (s : Store ρ β φ ν) :
    (paths.foldl Store.removeStructuralFile s).chunks = s.chunks ∧
    (paths.foldl Store.removeStructuralFile s).reuses = s.reuses ∧
    (paths.foldl Store.removeStructuralFile s).fingerprint = s.fingerprint := by
  induction paths generalizing s with
  | nil => exact ⟨rfl, rfl, rfl⟩
  | cons path paths ih => exact ih (s.removeStructuralFile path)

theorem sound_reportKeeps : ReportKeeps x reads report strategy (Sound setup (ρ := ρ) (β := β)) where
  header _ h := h
  java _ _ _ _ h := h
  orphans _ _ _ h := sound_removeFile h
  write _ _ _ _ _ _ h := h
  purge _ s failed _ _ h := by
    obtain ⟨hchunks, hreuses, hfingerprint⟩ := foldl_removeStructuralFile_rest failed s
    exact h.shrink (fun c hc => hchunks ▸ hc) hreuses (.inl hfingerprint)

theorem sound_filesKeep : FilesKeep x reads files (Sound setup (ρ := ρ) (β := β)) where
  header _ h := h
  java _ _ h := h
  refresh _ _ h := h
  write _ _ _ _ h := h

theorem sound_removalKeeps : RemovalKeeps x reads paths (Sound setup (ρ := ρ) (β := β)) where
  header _ h := h
  remove _ h := sound_removeFile h
  java _ _ _ _ h := h
  refresh _ _ _ _ h := h

end Structural

/-- A pass over the index -/
inductive IndexOp (φ : Type) where
  | structural (op : StructuralOp)
  | removeFiles (paths : List String)
  | semanticIndex (report : DiscoveryReport) (strategy : IndexStrategy) (own : φ)
  | semanticIndexFiles (files : List FileInfo) (own : φ)
  | semanticRemoveFiles (paths : List String)
  | openForModelRebuild (model : String) (dim : Nat)

/-- A pass with what it meets; a failed call of `faults` cuts it off. -/
structure IndexEvent (φ : Type) where
  op : IndexOp φ
  reads : Reads
  faults : List (Option Unit) := []

section History

variable [DecidableEq φ]

/-- The index the pass leaves, finished or not -/
def IndexEvent.after (x : Extraction ρ β) (setup : Setup φ ν) (s : Store ρ β φ ν) (e : IndexEvent φ) : Store ρ β φ ν :=
  match e.op with
  | .structural op => StructuralEvent.after x s ⟨op, e.reads, e.faults⟩
  | .removeFiles paths => (removeFiles paths ⟨s, e.faults⟩).2.state
  | .semanticIndex report strategy own =>
    (semanticIndexDiscoveryReport setup e.reads own report strategy ⟨s, e.faults⟩).2.state
  | .semanticIndexFiles files own => (semanticIndexFiles setup e.reads own files ⟨s, e.faults⟩).2.state
  | .semanticRemoveFiles paths => (semanticRemoveFiles paths ⟨s, e.faults⟩).2.state
  | .openForModelRebuild model dim => (openForModelRebuild model dim ⟨s, e.faults⟩).2.state

theorem after_sound {x : Extraction ρ β} (e : IndexEvent φ) (hs : Sound setup s) : Sound setup (e.after x setup s) := by
  obtain ⟨op, reads, faults⟩ := e
  cases op with
  | structural op =>
    cases op with
    | index report strategy => exact (indexDiscoveryReport_keeps sound_reportKeeps).holds hs faults
    | indexFiles files => exact (indexFiles_keeps sound_filesKeep).holds hs faults
    | removeFilesWithSource paths => exact (removeFilesWithSource_keeps sound_removalKeeps).holds hs faults
  | removeFiles paths => exact (removeFiles_keeps (fun _ h => h) fun _ h => sound_removeFile h).holds hs faults
  | semanticIndex report strategy own => exact semanticIndexDiscoveryReport_keepsSound.holds hs faults
  | semanticIndexFiles files own => exact semanticIndexFiles_sound.holds hs faults
  | semanticRemoveFiles paths => exact (semanticRemoveFiles_sound paths).holds hs faults
  | openForModelRebuild model dim => exact (openForModelRebuild_sound model dim).holds hs faults

theorem history_sound {x : Extraction ρ β} (events : List (IndexEvent φ)) (hs : Sound setup s) :
    Sound setup (events.foldl (IndexEvent.after x setup) s) := by
  induction events generalizing s with
  | nil => exact hs
  | cons e events ih => exact ih (after_sound e hs)

/-- In every state that passes, cut off anywhere, reach from a table nobody has attested: if a fingerprint is
recorded, every row was embedded under it and has the vector of its text, and no vector was ever reused
under another fingerprint than the recorded one. -/
theorem attestation_never_false (x : Extraction ρ β) (setup : Setup φ ν) (s : Store ρ β φ ν)
    (hunattested : s.fingerprint = none) (hnew : s.reuses = []) (events : List (IndexEvent φ)) :
    (∀ own, (events.foldl (IndexEvent.after x setup) s).fingerprint = some own →
      ∀ c ∈ (events.foldl (IndexEvent.after x setup) s).chunks,
        c.embeddedUnder = own ∧ c.vector = setup.embed own c.text) ∧
    ∀ r ∈ (events.foldl (IndexEvent.after x setup) s).reuses, r.2 = some r.1 := by
  have hstart : Sound setup s := by
    refine ⟨fun own hown => ?_, fun r hr => ?_⟩
    · rw [hunattested] at hown
      cases hown
    · rw [hnew] at hr
      cases hr
  exact history_sound events hstart

end History

section Examples

/-- One chunk per content; a vector names its fingerprint and its text. -/
def namingSetup : Setup String String where
  chunkText hash := [("text of " ++ hash, 1, 1)]
  embed own text := own ++ ":" ++ text

/-- A row nobody vouches for -/
def legacyStore : Store Unit Nat String String :=
  { chunks := [⟨"old.py", "python", "x", 1, 1, "?", "unknown"⟩], hasTable := true, model := some ("m", 3) }

def onlyPython : DiscoveryReport := { files := [⟨"a.py", .python, "1"⟩] }

/-- A full pass under `g`, one under `f` that dies after it cleared the fingerprint, and one that ends -/
def switchedSetup : List (IndexEvent String) :=
  [⟨.openForModelRebuild "m" 3, oneDisk, []⟩, ⟨.semanticIndex onlyPython .full "g", oneDisk, []⟩,
    ⟨.semanticIndex onlyPython .incremental "f", oneDisk, [none, some ()]⟩,
    ⟨.semanticIndex onlyPython .incremental "f", oneDisk, []⟩]

theorem attestation_never_false_switched :
    (switchedSetup.foldl (IndexEvent.after countingExtraction namingSetup) legacyStore).fingerprint = some "f" ∧
      (switchedSetup.foldl (IndexEvent.after countingExtraction namingSetup) legacyStore).chunks.length = 1 ∧
      ∀ c ∈ (switchedSetup.foldl (IndexEvent.after countingExtraction namingSetup) legacyStore).chunks,
        c.embeddedUnder = "f" ∧ c.vector = "f" ++ ":" ++ c.text := by
  have hrecorded :
      (switchedSetup.foldl (IndexEvent.after countingExtraction namingSetup) legacyStore).fingerprint = some "f" := by
    decide
  exact ⟨hrecorded, by decide, (attestation_never_false countingExtraction namingSetup legacyStore rfl rfl
    switchedSetup).1 "f" hrecorded⟩

end Examples

end Graph
end CodeSage
