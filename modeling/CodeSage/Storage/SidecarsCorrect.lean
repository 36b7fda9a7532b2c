import Mathlib.Data.List.Perm.Subperm
import Mathlib.Data.List.Nodup
import CodeSage.Storage.Sidecars

/-!
# CodeSage.Storage.SidecarsCorrect

The verdict a handle remembers outlives rollbacks. `Sound` is the invariant of the handle: a remembered
verdict holds of the current tables and of the tables a rollback goes back to; while nothing is remembered
and no rebuild is pending, a rollback changes no row.

* `verdict_survives_rollbacks`: in every state reached.
* `delete_leaves_no_row_of_path`: what a successful delete leaves.
-/

namespace CodeSage
namespace Storage

open Lib Lib.Prog Lib.Db

namespace ChunkTables

def ftsIds (t : ChunkTables) : List Int := t.ftsRows.map (·.rowid)

def pathIds (t : ChunkTables) : List Int := t.pathRows.map (·.id)

/-- Rowids are unique in each table, the counter is past the chunk ids, an id names one path. -/
structure Consistent (t : ChunkTables) : Prop where
  chunksUnique : t.chunkIds.Nodup
  ftsUnique : t.ftsIds.Nodup
  pathsUnique : t.pathIds.Nodup
  counter : ∀ id ∈ t.chunkIds, id ≤ t.seq
  ftsNames : ∀ f ∈ t.ftsRows, ∀ c ∈ t.chunks, f.rowid = c.id → f.text.filePath = c.text.filePath
  pathNames : ∀ p ∈ t.pathRows, ∀ c ∈ t.chunks, p.id = c.id → p.filePath = c.text.filePath

/-- The path sidecar holds the (id, path) pairs of the chunk table. -/
def PathsMirror (t : ChunkTables) : Prop :=
  ∀ id filePath, ⟨id, filePath⟩ ∈ t.pathRows ↔ ∃ c ∈ t.chunks, c.id = id ∧ c.text.filePath = filePath

def FtsMirrors (t : ChunkTables) : Prop := ∀ id, id ∈ t.ftsIds ↔ id ∈ t.chunkIds

/-- What a verdict says. -/
def Mirrors (sync : SidecarSync) (t : ChunkTables) : Prop :=
  t.PathsMirror ∧ (sync.ftsByRowid = true → t.FtsMirrors)

/-- The same rows, whether or not an empty path sidecar exists. -/
structure SameRows (t t' : ChunkTables) : Prop where
  seq : t'.seq = t.seq
  chunks : t'.chunks = t.chunks
  fts : t'.fts = t.fts
  paths : t'.pathRows = t.pathRows

theorem SameRows.refl (t : ChunkTables) : SameRows t t := ⟨rfl, rfl, rfl, rfl⟩

theorem SameRows.symm {t t' : ChunkTables} (h : SameRows t t') : SameRows t' t :=
  ⟨h.seq.symm, h.chunks.symm, h.fts.symm, h.paths.symm⟩

theorem SameRows.trans {a b c : ChunkTables} (h : SameRows a b) (h' : SameRows b c) : SameRows a c :=
  ⟨h'.seq.trans h.seq, h'.chunks.trans h.chunks, h'.fts.trans h.fts, h'.paths.trans h.paths⟩

section SameRows

variable {t t' : ChunkTables} (h : SameRows t t')

include h

theorem SameRows.chunkIds : t'.chunkIds = t.chunkIds := by rw [ChunkTables.chunkIds, h.chunks, ChunkTables.chunkIds]

theorem SameRows.ftsRows : t'.ftsRows = t.ftsRows := by rw [ChunkTables.ftsRows, h.fts, ChunkTables.ftsRows]

theorem SameRows.ftsIds : t'.ftsIds = t.ftsIds := by rw [ChunkTables.ftsIds, h.ftsRows, ChunkTables.ftsIds]

theorem SameRows.consistent (hc : t.Consistent) : t'.Consistent where
  chunksUnique := by rw [h.chunkIds]; exact hc.chunksUnique
  ftsUnique := by rw [h.ftsIds]; exact hc.ftsUnique
  pathsUnique := by rw [pathIds, h.paths]; exact hc.pathsUnique
  counter := by rw [h.chunkIds, h.seq]; exact hc.counter
  ftsNames := by rw [h.ftsRows, h.chunks]; exact hc.ftsNames
  pathNames := by rw [h.paths, h.chunks]; exact hc.pathNames

theorem SameRows.pathsMirror (hm : t.PathsMirror) : t'.PathsMirror := by
  rw [PathsMirror, h.paths, h.chunks]
  exact hm

theorem SameRows.mirrors {sync : SidecarSync} (hm : t.Mirrors sync) : t'.Mirrors sync := by
  refine ⟨h.pathsMirror hm.1, fun hby => ?_⟩
  rw [FtsMirrors, h.ftsIds, h.chunkIds]
  exact hm.2 hby

end SameRows

/-- Two lists of unique ids of one length, one inside the other, hold the same ids. -/
theorem mem_iff_of_unique {ids sidecar : List Int} (hunique : ids.Nodup) (hlen : sidecar.length = ids.length)
    (hsub : ids ⊆ sidecar) (id : Int) : id ∈ sidecar ↔ id ∈ ids :=
  ((hunique.subperm hsub).perm_of_length_le (Nat.le_of_eq hlen)).mem_iff.symm

section Probes

variable {t : ChunkTables} (hc : t.Consistent)

include hc

theorem ftsMirrors_of_inSync (h : t.ftsInSync = true) : t.FtsMirrors := by
  unfold ftsInSync at h
  obtain ⟨fts, hfts⟩ : ∃ fts, t.fts = some fts := by
    cases hfts : t.fts with
    | none => simp [hfts] at h
    | some fts => exact ⟨fts, rfl⟩
  rw [hfts, Option.any_some, Bool.and_eq_true, decide_eq_true_eq] at h
  have hids : t.ftsIds = fts.map (·.rowid) := by rw [ftsIds, ftsRows, hfts]; rfl
  refine mem_iff_of_unique hc.chunksUnique (by simpa [hids, chunkIds] using h.1) ?_
  intro id hid
  obtain ⟨c, hmem, rfl⟩ := List.mem_map.mp hid
  obtain ⟨f, hf, heq⟩ := List.any_eq_true.mp (List.all_eq_true.mp h.2 c hmem)
  rw [hids]
  exact List.mem_map.mpr ⟨f, hf, of_decide_eq_true heq⟩

theorem pathsMirror_of_ids (h : ∀ id, id ∈ t.pathIds ↔ id ∈ t.chunkIds) : t.PathsMirror := by
  intro id filePath
  constructor
  · intro hp
    obtain ⟨c, hmem, hid⟩ := List.mem_map.mp ((h id).mp (List.mem_map.mpr ⟨_, hp, rfl⟩))
    exact ⟨c, hmem, hid, (hc.pathNames _ hp c hmem hid.symm).symm⟩
  · rintro ⟨c, hmem, rfl, rfl⟩
    obtain ⟨p, hp, hid⟩ := List.mem_map.mp ((h c.id).mpr (List.mem_map.mpr ⟨c, hmem, rfl⟩))
    have hname := hc.pathNames p hp c hmem hid
    obtain ⟨pid, ppath⟩ := p
    cases hid
    cases hname
    exact hp

theorem chunk_of_id {c c' : ChunkRow} (hmem : c ∈ t.chunks) (hmem' : c' ∈ t.chunks) (hid : c.id = c'.id) : c = c' :=
  List.inj_on_of_nodup_map hc.chunksUnique hmem hmem' hid

end Probes

/-- The tables after the path sidecar was written from the chunk table. -/
def rebuiltPaths (t : ChunkTables) : ChunkTables :=
  { t with paths := some (t.chunks.map fun c => ⟨c.id, c.text.filePath⟩) }

def rebuiltFts (t : ChunkTables) : ChunkTables := { t with fts := some (t.chunks.map fun c => ⟨c.id, c.text⟩) }

theorem rebuiltPaths_mirror (t : ChunkTables) : t.rebuiltPaths.PathsMirror := by
  intro id filePath
  simp [rebuiltPaths, pathRows]

theorem rebuiltPaths_consistent {t : ChunkTables} (hc : t.Consistent) : t.rebuiltPaths.Consistent where
  chunksUnique := hc.chunksUnique
  ftsUnique := hc.ftsUnique
  pathsUnique := by simpa [rebuiltPaths, pathIds, pathRows, chunkIds, Function.comp_def] using hc.chunksUnique
  counter := hc.counter
  ftsNames := hc.ftsNames
  pathNames := by
    intro p hp c hmem hid
    obtain ⟨c', hmem', rfl⟩ := List.mem_map.mp hp
    rw [chunk_of_id hc hmem' hmem hid]

theorem rebuiltFts_mirror (t : ChunkTables) : t.rebuiltFts.FtsMirrors := by
  intro id
  simp [rebuiltFts, ftsIds, ftsRows, chunkIds]

theorem rebuiltFts_consistent {t : ChunkTables} (hc : t.Consistent) : t.rebuiltFts.Consistent where
  chunksUnique := hc.chunksUnique
  ftsUnique := by simpa [rebuiltFts, ftsIds, ftsRows, chunkIds, Function.comp_def] using hc.chunksUnique
  pathsUnique := hc.pathsUnique
  counter := hc.counter
  ftsNames := by
    intro f hf c hmem hid
    obtain ⟨c', hmem', rfl⟩ := List.mem_map.mp hf
    rw [chunk_of_id hc hmem' hmem hid]
  pathNames := hc.pathNames

end ChunkTables

open ChunkTables

/-- The invariant of a handle. -/
structure Sound (h : Handle) : Prop where
  current : h.current.Consistent
  saved : ∀ b ∈ h.saved, b.Consistent
  remembered : ∀ sync ∈ h.memory.sync, h.current.Mirrors sync ∧ ∀ b ∈ h.saved, b.Mirrors sync
  /-- nothing was written yet in a transaction whose verdict may still be remembered -/
  unwritten : h.memory.sync = none → h.memory.uncommittedRebuild = false → ∀ b ∈ h.saved, SameRows b h.current

namespace Sound

variable {h h' : Handle} {t : ChunkTables}

theorem rollback (hs : Sound h) : Sound h.rollback := by
  obtain ⟨current, saved, memory⟩ := h
  cases saved with
  | none => exact hs
  | some b =>
    refine ⟨hs.saved b rfl, by rintro _ ⟨⟩, ?_, by rintro _ _ _ ⟨⟩⟩
    intro sync hsync
    exact ⟨(hs.remembered sync hsync).2 b rfl, by rintro _ ⟨⟩⟩

theorem opened (hs : Sound h) : Sound h.opened := by
  obtain ⟨current, saved, memory⟩ := h
  cases saved with
  | some b => exact hs
  | none =>
    refine ⟨hs.current, ?_, ?_, ?_⟩
    · rintro b ⟨⟩
      exact hs.current
    · intro sync hsync
      refine ⟨(hs.remembered sync hsync).1, ?_⟩
      rintro b ⟨⟩
      exact (hs.remembered sync hsync).1
    · rintro _ _ b ⟨⟩
      exact SameRows.refl _

theorem undone (hs : Sound h) (hu : Undone h h') : Sound h' := by
  rcases hu with rfl | rfl | rfl
  · exact hs
  · exact hs.opened
  · exact hs.rollback

theorem refused (hs : Sound h) (hr : Refused h h') : Sound h' := hs.undone hr.undone

/-- No row changes: at most an empty path sidecar is created. -/
theorem sameRows (hs : Sound h) (ht : SameRows h.current t) : Sound (h.setCurrent t) where
  current := ht.consistent hs.current
  saved := hs.saved
  remembered sync hsync := ⟨ht.mirrors (hs.remembered sync hsync).1, (hs.remembered sync hsync).2⟩
  unwritten hnone hflag b hb := (hs.unwritten hnone hflag b hb).trans ht

/-- New tables that keep every verdict, where one is remembered or a rebuild is pending. -/
theorem write (hs : Sound h) (hc : t.Consistent) (hm : ∀ sync ∈ h.memory.sync, h.current.Mirrors sync → t.Mirrors sync)
    (hpending : h.memory.sync = none → h.memory.uncommittedRebuild = true ∨ h.saved = none) :
    Sound (h.setCurrent t) where
  current := hc
  saved := hs.saved
  remembered sync hsync := ⟨hm sync hsync (hs.remembered sync hsync).1, (hs.remembered sync hsync).2⟩
  unwritten hnone hflag b hb := by
    rcases hpending hnone with htrue | hsaved
    · rw [show (h.setCurrent t).memory = h.memory from rfl, htrue] at hflag
      cases hflag
    · rw [show (h.setCurrent t).saved = h.saved from rfl, hsaved] at hb
      cases hb

/-- In autocommit mode the flag says nothing. -/
theorem autocommit (hs : Sound h) (hsaved : h.saved = none) (b : Bool) :
    Sound (h.setMemory { h.memory with uncommittedRebuild := b }) where
  current := hs.current
  saved := hs.saved
  remembered := hs.remembered
  unwritten _ _ b hb := by
    change b ∈ h.saved at hb
    rw [hsaved] at hb
    cases hb

/-- A rebuild in a transaction: no verdict is remembered until the flag is cleared. -/
theorem pending (hs : Sound h) (hc : t.Consistent) (hm : ∀ sync ∈ h.memory.sync, t.Mirrors sync) :
    Sound ((h.setCurrent t).setMemory { h.memory with uncommittedRebuild := true }) where
  current := hc
  saved := hs.saved
  remembered sync hsync := ⟨hm sync hsync, (hs.remembered sync hsync).2⟩
  unwritten _ hflag := by cases hflag

/-- A verdict reached with no rebuild pending holds of the tables a rollback goes back to as well. -/
theorem remember (hs : Sound h) {sync : SidecarSync} (hnone : h.memory.sync = none)
    (hflag : h.memory.uncommittedRebuild = false) (hm : h.current.Mirrors sync) :
    Sound (h.setMemory { h.memory with sync := some sync }) where
  current := hs.current
  saved := hs.saved
  remembered := by
    rintro _ ⟨⟩
    exact ⟨hm, fun b hb => (hs.unwritten hnone hflag b hb).symm.mirrors hm⟩
  unwritten := by rintro ⟨⟩

end Sound

section Ensure

variable {h : Handle}

theorem ftsSidecarHealth_spec : Ends ftsSidecarHealth h
    (fun r h' => h' = h ∧ (r = .inSync ↔ h.current.ftsInSync = true)) (fun _ h' => Refused h h') := by
  refine Ends.bind (Q := fun r h' => h' = h ∧ (r.2.2 = true ↔ h.current.ftsInSync = true)) ?_ ?_
  · refine Ends.bind Ends.query ?_
    rintro n _ ⟨hn, rfl⟩
    cases hn
    refine Ends.bind Ends.query ?_
    rintro n _ ⟨hn, rfl⟩
    obtain ⟨fts, hfts, rfl⟩ := Option.map_eq_some_iff.mp hn
    rw [ftsInSync, hfts, Option.any_some, Bool.and_eq_true, decide_eq_true_eq]
    split
    · next hlen =>
      refine Ends.bind Ends.query ?_
      rintro b _ ⟨hb, rfl⟩
      rw [ftsRowidsMatch, hfts, Option.map_some] at hb
      refine Ends.pure ⟨rfl, ?_⟩
      rw [← Option.some_inj.mp hb]
      exact ⟨fun hall => ⟨hlen.symm, hall⟩, fun hboth => hboth.2⟩
    · next hlen =>
      refine Ends.pure ⟨rfl, ?_⟩
      simp only [Bool.false_eq_true, false_iff, not_and]
      intro heq
      exact absurd heq.symm hlen
  · rintro r _ ⟨rfl, hr⟩
    refine Ends.pure ⟨rfl, ?_⟩
    rw [← hr]
    split <;> simp_all

/-- The probe compares the counts and looks up every chunk id. -/
theorem pathSidecarInSync_spec (hc : h.current.Consistent) : Ends pathSidecarInSync h
    (fun b h' => h' = h ∧ (b = true ↔ h.current.PathsMirror)) (fun _ h' => Refused h h') := by
  refine Ends.bind Ends.query ?_
  rintro n _ ⟨hn, rfl⟩
  cases hn
  refine Ends.bind Ends.query ?_
  rintro n _ ⟨hn, rfl⟩
  obtain ⟨paths, hpaths, rfl⟩ := Option.map_eq_some_iff.mp hn
  rename_i h
  have hrows : h.current.pathRows = paths := by rw [pathRows, hpaths]; rfl
  have hids : h.current.pathIds = paths.map (·.id) := by rw [pathIds, hrows]
  split
  · next hlen =>
    refine Ends.mono Ends.query ?_ fun _ _ hr => hr
    rintro b _ ⟨hb, rfl⟩
    rw [hpaths, Option.map_some] at hb
    refine ⟨rfl, ?_⟩
    rw [← Option.some_inj.mp hb]
    constructor
    · intro hall
      refine pathsMirror_of_ids hc (mem_iff_of_unique hc.chunksUnique (by simpa [hids, chunkIds] using hlen.symm) ?_)
      intro id hid
      obtain ⟨c, hmem, rfl⟩ := List.mem_map.mp hid
      obtain ⟨p, hp, heq⟩ := List.any_eq_true.mp (List.all_eq_true.mp hall c hmem)
      rw [hids]
      exact List.mem_map.mpr ⟨p, hp, of_decide_eq_true heq⟩
    · intro hm
      rw [List.all_eq_true]
      intro c hmem
      have hp := (hm c.id c.text.filePath).mpr ⟨c, hmem, rfl, rfl⟩
      rw [hrows] at hp
      exact List.any_eq_true.mpr ⟨_, hp, decide_eq_true rfl⟩
  · next hlen =>
    refine Ends.pure ⟨rfl, ?_⟩
    simp only [Bool.false_eq_true, false_iff]
    intro hm
    have hperm : h.current.pathIds.Perm h.current.chunkIds := by
      refine (List.perm_ext_iff_of_nodup hc.pathsUnique hc.chunksUnique).mpr fun id => ?_
      simp only [pathIds, chunkIds, List.mem_map]
      constructor
      · rintro ⟨⟨_, filePath⟩, hp, rfl⟩
        obtain ⟨c, hmem, hid, -⟩ := (hm _ filePath).mp hp
        exact ⟨c, hmem, hid⟩
      · rintro ⟨c, hmem, rfl⟩
        exact ⟨_, (hm c.id c.text.filePath).mpr ⟨c, hmem, rfl, rfl⟩, rfl⟩
    exact hlen (by simpa [hids, chunkIds] using hperm.length_eq.symm)

theorem rebuildPathSidecar_spec : Ends rebuildPathSidecar h
    (fun _ h' => h' = h.setCurrent h.current.rebuiltPaths) (fun _ h' => Undone h h') := by
  refine Ends.mono (Ends.savepointBatch (R := fun _ t => t = h.current.rebuiltPaths) ?_) ?_ fun _ _ hu => hu
  · refine Writes.bind (Writes.execute (R := fun _ t => t = { h.current with paths := some [] }) ?_) ?_
    · intro t ht
      obtain ⟨paths, -, rfl⟩ := Option.map_eq_some_iff.mp ht
      rfl
    · rintro _ t rfl
      refine Writes.execute fun t ht => ?_
      cases ht
      rfl
  · rintro _ _ ⟨t, rfl, rfl⟩
    rfl

theorem rebuildFtsSidecar_spec : Ends rebuildFtsSidecar h
    (fun _ h' => h' = h.setCurrent h.current.rebuiltFts) (fun _ h' => Undone h h') := by
  refine Ends.mono (Ends.savepointBatch (R := fun _ t => t = h.current.rebuiltFts) ?_) ?_ fun _ _ hu => hu
  · refine Writes.bind (Writes.execute (R := fun _ t => t = { h.current with fts := some [] }) ?_) ?_
    · intro t ht
      obtain ⟨fts, -, rfl⟩ := Option.map_eq_some_iff.mp ht
      rfl
    · rintro _ t rfl
      refine Writes.execute fun t ht => ?_
      cases ht
      rfl
  · rintro _ _ ⟨t, rfl, rfl⟩
    rfl

/-- The tables after `sync_path_sidecar`: only the path rows may differ, and they mirror the chunk table. -/
structure Synced (t : ChunkTables) (rebuilt : Bool) (t' : ChunkTables) : Prop where
  chunks : t'.chunks = t.chunks
  fts : t'.fts = t.fts
  consistent : t'.Consistent
  mirror : t'.PathsMirror
  kept : rebuilt = false → SameRows t t'
  only : rebuilt = true → ¬ t.PathsMirror

theorem syncPathSidecar_spec (hs : Sound h) : Ends syncPathSidecar h
    (fun rebuilt h' => ∃ t, h' = h.setCurrent t ∧ Synced h.current rebuilt t) (fun _ h' => Sound h') := by
  refine Ends.bind (Ends.execute.mono (fun _ _ hq => hq) fun _ _ hr => hs.refused hr) ?_
  rintro _ _ ⟨t, ht, rfl⟩
  have hsame : SameRows h.current t := by
    cases ht
    exact ⟨rfl, rfl, rfl, rfl⟩
  have hs' := hs.sameRows hsame
  refine Ends.bind ((pathSidecarInSync_spec hs'.current).mono (fun _ _ hq => hq) fun _ _ hr => hs'.refused hr) ?_
  rintro b _ ⟨rfl, hb⟩
  split
  · next htrue =>
    refine Ends.pure ⟨t, rfl, hsame.chunks, hsame.fts, hs'.current, hb.mp htrue, fun _ => hsame, ?_⟩
    rintro ⟨⟩
  · next hfalse =>
    refine Ends.bind (rebuildPathSidecar_spec.mono (fun _ _ hq => hq) fun _ _ hu => hs'.undone hu) ?_
    rintro _ _ rfl
    refine Ends.pure ⟨t.rebuiltPaths, rfl, hsame.chunks, hsame.fts, rebuiltPaths_consistent hs'.current,
      rebuiltPaths_mirror t, ?_, fun _ hm => hfalse (hb.mpr (hsame.pathsMirror hm))⟩
    rintro ⟨⟩

theorem ftsVerdict_spec {ftsInSync : Option Bool} (hc : h.current.Consistent)
    (hcaller : ftsInSync = some true → h.current.ftsInSync = true) : Ends (ftsVerdict ftsInSync) h
    (fun b h' => h' = h ∧ (b = true → h.current.FtsMirrors)) (fun _ h' => Refused h h') := by
  cases ftsInSync with
  | some b =>
    refine Ends.pure ⟨rfl, ?_⟩
    rintro rfl
    exact ftsMirrors_of_inSync hc (hcaller rfl)
  | none =>
    refine Ends.bind Ends.query ?_
    rintro b _ ⟨-, rfl⟩
    split
    · refine Ends.bind ftsSidecarHealth_spec ?_
      rintro r _ ⟨rfl, hr⟩
      refine Ends.pure ⟨rfl, fun hb => ?_⟩
      exact ftsMirrors_of_inSync hc (hr.mp (of_decide_eq_true hb))
    · refine Ends.pure ⟨rfl, ?_⟩
      rintro ⟨⟩

/-- What a call that passed `ensure_sidecars` starts from. -/
structure Ensured (h : Handle) (sync : SidecarSync) (h' : Handle) : Prop where
  sound : Sound h'
  mirrors : h'.current.Mirrors sync
  pending : h'.memory.sync = none → h'.memory.uncommittedRebuild = true
  chunks : h'.current.chunks = h.current.chunks
  fts : h'.current.fts = h.current.fts
  paths : h.current.PathsMirror → h'.current.pathRows = h.current.pathRows

/-- From the tables left by `sync_path_sidecar`, in autocommit mode or not. -/
theorem syncedHandle_sound (hs : Sound h) (hnone : h.memory.sync = none) {rebuilt : Bool} {t : ChunkTables}
    (ht : Synced h.current rebuilt t) : Sound (if rebuilt && !h.isAutocommit then
      (h.setCurrent t).setMemory { h.memory with uncommittedRebuild := true } else h.setCurrent t) := by
  have hnoVerdict : ∀ {P : SidecarSync → Prop}, ∀ sync ∈ h.memory.sync, P sync := by
    rw [hnone]
    rintro _ _ ⟨⟩
  cases rebuilt with
  | false => exact hs.sameRows (ht.kept rfl)
  | true =>
    cases hsaved : h.saved with
    | none =>
      rw [Session.isAutocommit, hsaved]
      exact hs.write ht.consistent hnoVerdict fun _ => .inr hsaved
    | some b =>
      rw [Session.isAutocommit, hsaved]
      exact hs.pending ht.consistent hnoVerdict

theorem rememberVerdict_spec {b : Bool} (hs : Sound h) (hnone : h.memory.sync = none) (hm : h.current.Mirrors ⟨b⟩) :
    Ends (rememberVerdict b) h
      (fun _ h' => Sound h' ∧ h'.current = h.current ∧ (h'.memory.sync = none → h'.memory.uncommittedRebuild = true))
      (fun _ h' => Sound h') := by
  refine Ends.lastUpdate ?_
  split
  · next hflag => exact ⟨hs, rfl, fun _ => hflag⟩
  · next hflag =>
    refine ⟨hs.remember hnone (Bool.not_eq_true _ ▸ hflag) hm, rfl, ?_⟩
    rintro ⟨⟩

theorem verifySidecars_spec {ftsInSync : Option Bool} (hs : Sound h) (hnone : h.memory.sync = none)
    (hcaller : ftsInSync = some true → h.current.ftsInSync = true) :
    Ends (verifySidecars ftsInSync h.isAutocommit) h (fun sync h' => Ensured h sync h') (fun _ h' => Sound h') := by
  refine Ends.update ?_
  generalize hh : (if h.isAutocommit then h.setMemory { h.memory with uncommittedRebuild := false } else h) = h₁
  have hs₁ : Sound h₁ := by
    rw [← hh]
    split
    · next hauto => exact hs.autocommit (Option.isNone_iff_eq_none.mp hauto) false
    · exact hs
  have hcurrent : h₁.current = h.current := by rw [← hh]; split <;> rfl
  have hauto : h.isAutocommit = h₁.isAutocommit := by rw [← hh]; split <;> rfl
  have hnone₁ : h₁.memory.sync = none := by rw [← hh]; split <;> exact hnone
  refine Ends.bind (syncPathSidecar_spec hs₁) ?_
  rintro rebuilt _ ⟨t, rfl, ht⟩
  refine Ends.update ?_
  rw [hauto]
  have hs₂ := syncedHandle_sound hs₁ hnone₁ ht
  generalize hh₂ : (if rebuilt && !h₁.isAutocommit then
    (h₁.setCurrent t).setMemory { (h₁.setCurrent t).memory with uncommittedRebuild := true }
    else h₁.setCurrent t) = h₂
  rw [show (if rebuilt && !h₁.isAutocommit then
    (h₁.setCurrent t).setMemory { h₁.memory with uncommittedRebuild := true } else h₁.setCurrent t) = h₂ from hh₂]
    at hs₂
  have hcurrent₂ : h₂.current = t := by rw [← hh₂]; split <;> rfl
  have hnone₂ : h₂.memory.sync = none := by rw [← hh₂]; split <;> exact hnone₁
  have hinSync : t.ftsInSync = h.current.ftsInSync := by
    rw [ChunkTables.ftsInSync, ht.fts, ht.chunks, hcurrent, ChunkTables.ftsInSync]
  refine Ends.bind ((ftsVerdict_spec hs₂.current ?_).mono (fun _ _ hq => hq) fun _ _ hr => hs₂.refused hr) ?_
  · intro hv
    rw [hcurrent₂, hinSync]
    exact hcaller hv
  rintro b _ ⟨rfl, hb⟩
  rw [hcurrent₂] at hb
  have hm : t.Mirrors ⟨b⟩ := ⟨ht.mirror, hb⟩
  refine Ends.bind (rememberVerdict_spec hs₂ hnone₂ (by rw [hcurrent₂]; exact hm)) ?_
  rintro _ h₃ ⟨hs₃, hcurrent₃, hpending⟩
  rw [hcurrent₂] at hcurrent₃
  refine Ends.pure ⟨hs₃, by rw [hcurrent₃]; exact hm, hpending, ?_, ?_, ?_⟩
  · rw [hcurrent₃, ht.chunks, hcurrent]
  · rw [hcurrent₃, ht.fts, hcurrent]
  · intro hmirror
    rw [← hcurrent] at hmirror
    have hkept : SameRows h₁.current t := ht.kept (Bool.not_eq_true _ ▸ fun htrue => ht.only htrue hmirror)
    rw [hcurrent₃, hkept.paths, hcurrent]

theorem ensureSidecars_spec {ftsInSync : Option Bool} (hs : Sound h)
    (hcaller : ftsInSync = some true → h.current.ftsInSync = true) :
    Ends (ensureSidecars ftsInSync) h (fun sync h' => Ensured h sync h') (fun _ h' => Sound h') := by
  refine Ends.state ?_
  split
  · next sync hsync =>
    refine Ends.pure ⟨hs, (hs.remembered sync hsync).1, fun hnone => ?_, rfl, rfl, fun _ => rfl⟩
    rw [hsync] at hnone
    cases hnone
  · next hnone => exact verifySidecars_spec hs hnone hcaller

end Ensure

section Insert

variable {t : ChunkTables} {text : ChunkText} {embedding : List UInt8} {fts : List FtsRow} {paths : List PathRow}

/-- The tables after one chunk went into all three. -/
def insertedChunk (t : ChunkTables) (text : ChunkText) (embedding : List UInt8) (fts : List FtsRow)
    (paths : List PathRow) : ChunkTables :=
  { seq := t.seq + 1, chunks := t.chunks ++ [⟨t.seq + 1, text, embedding⟩],
    fts := some (fts ++ [⟨t.seq + 1, text⟩]), paths := some (paths ++ [⟨t.seq + 1, text.filePath⟩]) }

theorem seq_succ_notMem (hc : t.Consistent) : t.seq + 1 ∉ t.chunkIds := by
  intro hmem
  have := hc.counter _ hmem
  omega

theorem insertedChunk_consistent (hc : t.Consistent) (hfts : t.fts = some fts) (hpaths : t.paths = some paths)
    (hfreshFts : t.seq + 1 ∉ t.ftsIds) (hfreshPath : t.seq + 1 ∉ t.pathIds) :
    (insertedChunk t text embedding fts paths).Consistent := by
  have hftsRows : t.ftsRows = fts := by rw [ftsRows, hfts]; rfl
  have hpathRows : t.pathRows = paths := by rw [pathRows, hpaths]; rfl
  have hfresh := seq_succ_notMem hc
  refine ⟨?_, ?_, ?_, ?_, ?_, ?_⟩
  · simpa [insertedChunk, chunkIds, List.nodup_append] using ⟨hc.chunksUnique, fun c hmem heq =>
      hfresh (List.mem_map.mpr ⟨c, hmem, heq⟩)⟩
  · have := hc.ftsUnique
    rw [ftsIds, hftsRows] at this hfreshFts
    simpa [insertedChunk, ftsIds, ftsRows, List.nodup_append] using ⟨this, fun f hmem heq =>
      hfreshFts (List.mem_map.mpr ⟨f, hmem, heq⟩)⟩
  · have := hc.pathsUnique
    rw [pathIds, hpathRows] at this hfreshPath
    simpa [insertedChunk, pathIds, pathRows, List.nodup_append] using ⟨this, fun p hmem heq =>
      hfreshPath (List.mem_map.mpr ⟨p, hmem, heq⟩)⟩
  · intro id hid
    simp only [insertedChunk, chunkIds, List.map_append, List.map_cons, List.map_nil, List.mem_append,
      List.mem_singleton] at hid ⊢
    rcases hid with hid | rfl
    · have := hc.counter id hid
      omega
    · exact Int.le_refl _
  · -- a row of the new id is in no table yet, so old rows meet old chunks and the new row its own
    intro f hf c hmem hid
    simp only [insertedChunk, ftsRows, Option.getD_some, List.mem_append, List.mem_singleton] at hf hmem
    rcases hf with hf | rfl <;> rcases hmem with hmem | rfl
    · exact hc.ftsNames f (hftsRows ▸ hf) c hmem hid
    · exact absurd (List.mem_map.mpr ⟨f, hftsRows ▸ hf, hid⟩) hfreshFts
    · exact absurd (List.mem_map.mpr ⟨c, hmem, hid.symm⟩) hfresh
    · rfl
  · intro p hp c hmem hid
    simp only [insertedChunk, pathRows, Option.getD_some, List.mem_append, List.mem_singleton] at hp hmem
    rcases hp with hp | rfl <;> rcases hmem with hmem | rfl
    · exact hc.pathNames p (hpathRows ▸ hp) c hmem hid
    · exact absurd (List.mem_map.mpr ⟨p, hpathRows ▸ hp, hid⟩) hfreshPath
    · exact absurd (List.mem_map.mpr ⟨c, hmem, hid.symm⟩) hfresh
    · rfl

theorem insertedChunk_mirrors {sync : SidecarSync} (hfts : t.fts = some fts) (hpaths : t.paths = some paths)
    (hm : t.Mirrors sync) : (insertedChunk t text embedding fts paths).Mirrors sync := by
  have hftsRows : t.ftsRows = fts := by rw [ftsRows, hfts]; rfl
  have hpathRows : t.pathRows = paths := by rw [pathRows, hpaths]; rfl
  constructor
  · intro id filePath
    have hold := hm.1 id filePath
    rw [hpathRows] at hold
    simp only [insertedChunk, pathRows, Option.getD_some, List.mem_append, List.mem_singleton, hold, or_and_right,
      exists_or, exists_eq_left, PathRow.mk.injEq, eq_comm (a := id), eq_comm (a := filePath)]
  · intro hby id
    have hold := hm.2 hby id
    rw [ftsIds, hftsRows] at hold
    simp only [insertedChunk, ftsIds, ftsRows, chunkIds, Option.getD_some, List.map_append, List.mem_append, hold,
      List.map_cons, List.map_nil]

/-- The tables stay consistent and keep every verdict. -/
def MirrorsKept (t t' : ChunkTables) : Prop := t'.Consistent ∧ ∀ sync, t.Mirrors sync → t'.Mirrors sync

theorem insertChunk_writes {b : ChunkTables} {m : SidecarMemo} {filePath language : String} {c : Chunk}
    (hc : t.Consistent) : Writes (insertChunk filePath language c) b m t fun _ t' => MirrorsKept t t' := by
  refine Writes.bind (Writes.statement (R := fun rowid t' => rowid = t.seq + 1 ∧ t' = { t with
    seq := t.seq + 1, chunks := t.chunks ++ [⟨t.seq + 1, c.text filePath language, c.embedding⟩] }) ?_) ?_
  · intro rowid t' h
    cases h
    exact ⟨rfl, rfl⟩
  rintro _ _ ⟨rfl, rfl⟩
  refine Writes.bind (Writes.execute (R := fun _ t' => ∃ fts, t.fts = some fts ∧ t.seq + 1 ∉ t.ftsIds ∧
    t' = { t with seq := t.seq + 1, chunks := t.chunks ++ [⟨t.seq + 1, c.text filePath language, c.embedding⟩],
                  fts := some (fts ++ [⟨t.seq + 1, c.text filePath language⟩]) }) ?_) ?_
  · intro t' h
    obtain ⟨fts, hfts, h⟩ := Option.bind_eq_some_iff.mp h
    split at h
    · cases h
    · next hfresh =>
      cases h
      refine ⟨fts, hfts, fun hmem => hfresh ?_, rfl⟩
      obtain ⟨f, hf, hid⟩ := List.mem_map.mp hmem
      rw [ftsRows, show t.fts = some fts from hfts] at hf
      exact List.any_eq_true.mpr ⟨f, hf, decide_eq_true hid⟩
  rintro _ _ ⟨fts, hfts, hfreshFts, rfl⟩
  refine Writes.execute fun t' h => ?_
  obtain ⟨paths, hpaths, h⟩ := Option.bind_eq_some_iff.mp h
  split at h
  · cases h
  · next hfresh =>
    cases h
    have hfreshPath : t.seq + 1 ∉ t.pathIds := by
      intro hmem
      obtain ⟨p, hp, hid⟩ := List.mem_map.mp hmem
      rw [pathRows, show t.paths = some paths from hpaths] at hp
      exact hfresh (List.any_eq_true.mpr ⟨p, hp, decide_eq_true hid⟩)
    exact ⟨insertedChunk_consistent hc hfts hpaths hfreshFts hfreshPath,
      fun sync hm => insertedChunk_mirrors hfts hpaths hm⟩

theorem insertChunks_writes {b : ChunkTables} {m : SidecarMemo} {filePath language : String} {chunks : List Chunk}
    (hc : t.Consistent) : Writes (prepareInserts >>= fun _ => each (insertChunk filePath language) chunks) b m t
      fun _ t' => MirrorsKept t t' := by
  have hprepare : Writes prepareInserts b m t fun _ t' => t' = t := by
    refine Writes.bind (Writes.query (R := fun _ t' => t' = t) fun _ _ => rfl) ?_
    rintro _ _ rfl
    refine Writes.bind (Writes.query (R := fun _ t' => t' = _) fun _ _ => rfl) ?_
    rintro _ _ rfl
    exact Writes.query fun _ _ => rfl
  refine Writes.bind hprepare ?_
  rintro _ t rfl
  refine Writes.each (I := fun _ t' => MirrorsKept t t') ⟨hc, fun _ hm => hm⟩ fun done c t' hgrown => ?_
  refine Writes.mono (insertChunk_writes hgrown.1) fun _ t'' hgrown' => ?_
  exact ⟨hgrown'.1, fun sync hm => hgrown'.2 sync (hgrown.2 sync hm)⟩

theorem insertChunks_sound {h : Handle} {filePath language : String} {chunks : List Chunk} (hs : Sound h) :
    Ends (insertChunks filePath language chunks) h (fun _ h' => Sound h') (fun _ h' => Sound h') := by
  refine Ends.bind (ensureSidecars_spec hs (by rintro ⟨⟩)) ?_
  rintro sync h' hensured
  refine Ends.mono (Ends.savepoint (insertChunks_writes hensured.sound.current)) ?_ ?_
  · rintro _ _ ⟨t, hgrown, rfl⟩
    exact hensured.sound.write hgrown.1 (fun sync _ => hgrown.2 sync) fun hnone => .inl (hensured.pending hnone)
  · rintro _ _ (hundone | ⟨-, t, hgrown, rfl⟩)
    · exact hensured.sound.undone hundone
    · exact hensured.sound.opened.write hgrown.1 (fun sync _ => hgrown.2 sync) fun hnone =>
        .inl (hensured.pending hnone)

end Insert

section Delete

variable {t b : ChunkTables} {m : SidecarMemo} {filePath : String} {ids : List Int} {sync : SidecarSync}

/-- The tables without the rows of one path. -/
def withoutPath (filePath : String) (t : ChunkTables) : ChunkTables :=
  { t with chunks := t.chunks.filter (·.text.filePath ≠ filePath),
           fts := t.fts.map (List.filter (·.text.filePath ≠ filePath)),
           paths := t.paths.map (List.filter (·.filePath ≠ filePath)) }

theorem withoutPath_ftsRows : (withoutPath filePath t).ftsRows = t.ftsRows.filter (·.text.filePath ≠ filePath) := by
  rw [ftsRows, ftsRows, withoutPath]
  cases t.fts <;> rfl

theorem withoutPath_pathRows : (withoutPath filePath t).pathRows = t.pathRows.filter (·.filePath ≠ filePath) := by
  rw [pathRows, pathRows, withoutPath]
  cases t.paths <;> rfl

theorem mem_withoutPath_chunks {c : ChunkRow} :
    c ∈ (withoutPath filePath t).chunks ↔ c ∈ t.chunks ∧ c.text.filePath ≠ filePath := by
  simp [withoutPath]

theorem withoutPath_consistent (hc : t.Consistent) : (withoutPath filePath t).Consistent := by
  refine ⟨?_, ?_, ?_, ?_, ?_, ?_⟩
  · exact hc.chunksUnique.sublist (List.filter_sublist.map _)
  · rw [ftsIds, withoutPath_ftsRows]
    exact hc.ftsUnique.sublist (List.filter_sublist.map _)
  · rw [pathIds, withoutPath_pathRows]
    exact hc.pathsUnique.sublist (List.filter_sublist.map _)
  · intro id hid
    exact hc.counter id ((List.filter_sublist.map _).subset hid)
  · intro f hf c hmem
    rw [withoutPath_ftsRows] at hf
    exact hc.ftsNames f (List.mem_of_mem_filter hf) c (mem_withoutPath_chunks.mp hmem).1
  · intro p hp c hmem
    rw [withoutPath_pathRows] at hp
    exact hc.pathNames p (List.mem_of_mem_filter hp) c (mem_withoutPath_chunks.mp hmem).1

theorem withoutPath_mirrors (hc : t.Consistent) (hm : t.Mirrors sync) : (withoutPath filePath t).Mirrors sync := by
  constructor
  · intro id path
    rw [withoutPath_pathRows, List.mem_filter, hm.1 id path, decide_eq_true_eq]
    simp only [mem_withoutPath_chunks]
    constructor
    · rintro ⟨⟨c, hmem, hid, rfl⟩, hne⟩
      exact ⟨c, ⟨hmem, hne⟩, hid, rfl⟩
    · rintro ⟨c, ⟨hmem, hne⟩, hid, rfl⟩
      exact ⟨⟨c, hmem, hid, rfl⟩, hne⟩
  · intro hby id
    have hold := hm.2 hby id
    simp only [ftsIds, chunkIds, List.mem_map] at hold ⊢
    rw [withoutPath_ftsRows]
    simp only [List.mem_filter, decide_eq_true_eq, mem_withoutPath_chunks]
    constructor
    · rintro ⟨f, ⟨hf, hne⟩, hid⟩
      obtain ⟨c, hmem, hid'⟩ := hold.mp ⟨f, hf, hid⟩
      exact ⟨c, ⟨hmem, hc.ftsNames f hf c hmem (hid.trans hid'.symm) ▸ hne⟩, hid'⟩
    · rintro ⟨c, ⟨hmem, hne⟩, hid⟩
      obtain ⟨f, hf, hid'⟩ := hold.mpr ⟨c, hmem, hid⟩
      exact ⟨f, ⟨hf, hc.ftsNames f hf c hmem (hid'.trans hid.symm) ▸ hne⟩, hid'⟩

/-- The ids the path sidecar names for a path are those of its chunks. -/
theorem mem_pathIds_iff (hc : t.Consistent) (hm : t.PathsMirror) {c : ChunkRow} (hmem : c ∈ t.chunks) :
    c.id ∈ (t.pathRows.filter (·.filePath = filePath)).map (·.id) ↔ c.text.filePath = filePath := by
  simp only [List.mem_map, List.mem_filter, decide_eq_true_eq]
  constructor
  · rintro ⟨p, ⟨hp, rfl⟩, hid⟩
    exact (hc.pathNames p hp c hmem hid).symm
  · rintro rfl
    exact ⟨_, ⟨(hm c.id _).mpr ⟨c, hmem, rfl, rfl⟩, rfl⟩, rfl⟩

theorem deleteChunks_writes : Writes (deleteChunks ids) b m t fun _ t' =>
    t' = { t with chunks := t.chunks.filter (·.id ∉ ids) } := by
  induction ids generalizing t with
  | nil => exact Writes.pure (by simp)
  | cons id ids ih =>
    refine Writes.bind (Writes.statement (R := fun _ t' => t' = { t with chunks := t.chunks.filter (·.id ≠ id) }) ?_) ?_
    · rintro n t' h
      cases h
      rfl
    rintro n _ rfl
    refine Writes.bind ih ?_
    rintro count _ rfl
    refine Writes.pure ?_
    simp [List.filter_filter, Bool.and_comm]

theorem deleteFtsRow_writes {fts : List FtsRow} (hfts : t.fts = some fts) :
    Writes (each (fun id => execute (deleteFtsRow id)) ids) b m t fun _ t' =>
      t' = { t with fts := some (fts.filter (·.rowid ∉ ids)) } := by
  refine Writes.each (I := fun done t' => t' = { t with fts := some (fts.filter (·.rowid ∉ done)) }) ?_ ?_
  · simp [hfts.symm]
  · rintro done id _ rfl
    refine Writes.execute fun t' h => ?_
    cases h
    simp [List.filter_filter, and_comm]

theorem deleteVectors_writes (hc : t.Consistent) (hm : t.PathsMirror)
    (hids : ids = (t.pathRows.filter (·.filePath = filePath)).map (·.id)) :
    Writes (deleteVectors filePath ids) b m t fun _ t' => t' = { withoutPath filePath t with fts := t.fts } := by
  have hchunks : t.chunks.filter (·.id ∉ ids) = t.chunks.filter (·.text.filePath ≠ filePath) := by
    refine List.filter_congr fun c hmem => decide_eq_decide.mpr (not_congr ?_)
    rw [hids]
    exact mem_pathIds_iff hc hm hmem
  rw [deleteVectors]
  split
  · next hempty =>
    -- no row names the path, so nothing is left out
    rw [List.isEmpty_iff] at hempty
    have hpaths : t.pathRows.filter (·.filePath ≠ filePath) = t.pathRows := by
      refine List.filter_eq_self.mpr fun p hp => decide_eq_true fun heq => ?_
      rw [hempty] at hids
      have : p.id ∈ (t.pathRows.filter (·.filePath = filePath)).map (·.id) :=
        List.mem_map.mpr ⟨p, List.mem_filter.mpr ⟨hp, decide_eq_true heq⟩, rfl⟩
      rw [← hids] at this
      cases this
    refine Writes.pure ?_
    have hall : t.chunks.filter (·.text.filePath ≠ filePath) = t.chunks := by
      rw [← hchunks, hempty]
      simp
    obtain ⟨seq, chunks, fts, paths⟩ := t
    cases paths with
    | none => simp only [withoutPath, hall, Option.map_none]
    | some paths =>
      have : paths.filter (·.filePath ≠ filePath) = paths := hpaths
      simp only [withoutPath, hall, Option.map_some, this]
  · refine Writes.bind deleteChunks_writes ?_
    rintro count _ rfl
    refine Writes.bind (Writes.execute (R := fun _ t' => t' = { withoutPath filePath t with fts := t.fts }) ?_) ?_
    · intro t' h
      obtain ⟨paths, hpaths, rfl⟩ := Option.map_eq_some_iff.mp h
      rw [withoutPath, hchunks, show t.paths = some paths from hpaths]
      rfl
    · rintro _ _ rfl
      exact Writes.pure rfl

theorem deleteFts_writes (hc : t.Consistent) (hm : t.Mirrors sync)
    (hids : ids = (t.pathRows.filter (·.filePath = filePath)).map (·.id)) :
    Writes (deleteFts filePath ids (some sync)) b m { withoutPath filePath t with fts := t.fts } fun _ t' =>
      t' = withoutPath filePath t := by
  rw [deleteFts]
  split
  · next hby =>
    cases hfts : t.fts with
    | none =>
      -- a verdict by rowid on a missing sidecar means an empty chunk table
      have hnil : ids = [] := by
        rw [List.eq_nil_iff_forall_not_mem]
        intro id hid
        rw [hids] at hid
        obtain ⟨p, hp, rfl⟩ := List.mem_map.mp hid
        obtain ⟨c, hmem, hid, -⟩ := (hm.1 p.id p.filePath).mp (List.mem_of_mem_filter hp)
        have := (hm.2 hby c.id).mpr (List.mem_map.mpr ⟨c, hmem, rfl⟩)
        rw [ftsIds, ftsRows, hfts] at this
        cases this
      rw [hnil]
      refine Writes.pure ?_
      rw [withoutPath, hfts]
      rfl
    | some fts =>
      have hsidecar : ({ withoutPath filePath t with fts := some fts } : ChunkTables).fts = some fts := rfl
      refine (deleteFtsRow_writes hsidecar).mono fun _ t' ht => ?_
      have hrows : t.ftsRows = fts := by rw [ftsRows, hfts]; rfl
      have hfilter : fts.filter (·.rowid ∉ ids) = fts.filter (·.text.filePath ≠ filePath) := by
        refine List.filter_congr fun f hf => decide_eq_decide.mpr (not_congr ?_)
        rw [← hrows] at hf
        obtain ⟨c, hmem, hid⟩ := List.mem_map.mp ((hm.2 hby f.rowid).mp (List.mem_map.mpr ⟨f, hf, rfl⟩))
        rw [hids, ← hid, mem_pathIds_iff hc hm.1 hmem, hc.ftsNames f hf c hmem hid.symm]
      rw [ht, hfilter, withoutPath, hfts]
      rfl
  · refine Writes.execute fun t' h => ?_
    obtain ⟨fts, hfts, rfl⟩ := Option.map_eq_some_iff.mp h
    rw [withoutPath, show t.fts = some fts from hfts]
    rfl

theorem deleteChunkRowsForPath_writes (hc : t.Consistent) (hm : t.Mirrors sync) :
    Writes (deleteChunkRowsForPath filePath (some sync)) b m t fun _ t' => t' = withoutPath filePath t := by
  refine Writes.bind (Writes.query (R := fun ids t' =>
    ids = (t.pathRows.filter (·.filePath = filePath)).map (·.id) ∧ t' = t) ?_) ?_
  · intro ids h
    obtain ⟨paths, hpaths, rfl⟩ := Option.map_eq_some_iff.mp h
    refine ⟨?_, rfl⟩
    rw [pathRows, hpaths]
    rfl
  rintro ids _ ⟨hids, rfl⟩
  refine Writes.bind (deleteVectors_writes hc hm.1 hids) ?_
  rintro count _ rfl
  refine Writes.bind (deleteFts_writes hc hm hids) ?_
  rintro _ _ rfl
  exact Writes.pure rfl

/-- A delete runs on tables whose path rows mirror the chunk table, and leaves them without the path. -/
theorem deleteChunksForFile_spec (filePath : String) {h : Handle} (hs : Sound h) : Ends (deleteChunksForFile filePath) h
    (fun _ h' => Sound h' ∧ ∃ sync h₁, Ensured h sync h₁ ∧ h' = h₁.setCurrent (withoutPath filePath h₁.current))
    (fun _ h' => Sound h') := by
  refine Ends.bind (ensureSidecars_spec hs (by rintro ⟨⟩)) ?_
  rintro sync h₁ hensured
  have hc := hensured.sound.current
  have hkeeps : ∀ sync ∈ h₁.memory.sync, h₁.current.Mirrors sync → (withoutPath filePath h₁.current).Mirrors sync :=
    fun _ _ hm => withoutPath_mirrors hc hm
  refine Ends.mono (Ends.savepoint (deleteChunkRowsForPath_writes hc hensured.mirrors)) ?_ ?_
  · rintro _ _ ⟨_, rfl, rfl⟩
    refine ⟨hensured.sound.write (withoutPath_consistent hc) hkeeps fun hnone => ?_, sync, h₁, hensured, rfl⟩
    exact .inl (hensured.pending hnone)
  · rintro _ _ (hundone | ⟨-, _, rfl, rfl⟩)
    · exact hensured.sound.undone hundone
    · exact hensured.sound.opened.write (withoutPath_consistent hc) hkeeps fun hnone =>
        .inl (hensured.pending hnone)

end Delete

section Runs

variable {h h' : Handle}

theorem rebuiltFts_mirrors {t : ChunkTables} {sync : SidecarSync} (hm : t.Mirrors sync) :
    t.rebuiltFts.Mirrors sync := ⟨hm.1, fun _ => rebuiltFts_mirror t⟩

theorem repairDiverged_sound (hs : Sound h) :
    Ends repairDiverged h (fun _ h' => Sound h') (fun _ h' => Sound h') := by
  refine Ends.update ?_
  have hc := rebuiltFts_consistent hs.current
  cases hsaved : h.saved with
  | none =>
    rw [Session.isAutocommit, hsaved]
    refine rebuildFtsSidecar_spec.mono ?_ fun _ _ hu => hs.undone hu
    rintro _ _ rfl
    exact hs.write hc (fun _ _ => rebuiltFts_mirrors) fun _ => .inr hsaved
  | some b =>
    rw [Session.isAutocommit, hsaved]
    have hs₁ : Sound (h.setMemory { h.memory with uncommittedRebuild := true }) :=
      hs.pending hs.current fun sync hsync => (hs.remembered sync hsync).1
    refine rebuildFtsSidecar_spec.mono ?_ fun _ _ hu => hs₁.undone hu
    rintro _ _ rfl
    exact hs₁.write hc (fun _ _ => rebuiltFts_mirrors) fun _ => .inl rfl

theorem repairFtsSidecar_sound (hs : Sound h) :
    Ends repairFtsSidecar h (fun _ h' => Sound h') (fun _ h' => Sound h') := by
  refine Ends.bind (ftsSidecarHealth_spec.mono (fun _ _ hq => hq) fun _ _ hr => hs.refused hr) ?_
  rintro r _ ⟨rfl, -⟩
  split
  · exact Ends.pure hs
  · exact repairDiverged_sound hs

theorem beginBatch_sound (hs : Sound h) : Ends beginBatch h (fun _ h' => Sound h') (fun _ h' => Sound h') := by
  refine Ends.bind (Ends.send.mono (fun _ _ hq => hq) fun _ _ hr => hs.refused (Ends.refused hr)) ?_
  rintro _ _ rfl
  refine Ends.state ?_
  split
  · exact Ends.lastUpdate hs.opened
  · exact Ends.throw hs

/-- Once committed, a rebuild can no longer be rolled back. -/
theorem Sound.committed (hs : Sound h) :
    Sound { h with saved := none, memory := { h.memory with uncommittedRebuild := false } } where
  current := hs.current
  saved := by rintro _ ⟨⟩
  remembered sync hsync := ⟨(hs.remembered sync hsync).1, by rintro _ ⟨⟩⟩
  unwritten := by rintro _ _ _ ⟨⟩

theorem commit_spec (hs : Sound h) : Ends commit h (fun _ h' => h' = { h with saved := none }) (fun _ h' => Sound h') := by
  refine Ends.bind (Ends.send.mono (fun _ _ hq => hq) fun _ _ hr => hs.refused (Ends.refused hr)) ?_
  rintro _ _ rfl
  refine Ends.state ?_
  split
  · exact Ends.throw hs
  · exact Ends.lastUpdate rfl

theorem finishBatch_sound (hs : Sound h) : Ends finishBatch h (fun _ h' => Sound h') (fun _ h' => Sound h') := by
  have hcommit := commit_spec hs
  refine Ends.tryCatch (Ends.bind hcommit ?_) fun e h' hs' => ?_
  · rintro _ _ rfl
    exact Ends.lastUpdate hs.committed
  · exact Ends.update (Ends.throw hs'.rollback)

theorem call_sound {op : Op} (hs : Sound h) (henabled : op.enabled h = true) :
    Ends op.call h (fun _ h' => Sound h') (fun _ h' => Sound h') := by
  cases op with
  | ensureSidecars ftsInSync =>
    refine Ends.bind (ensureSidecars_spec hs ?_) fun _ _ he => Ends.pure he.sound
    rintro rfl
    exact henabled
  | insertChunks filePath language chunks => exact insertChunks_sound hs
  | deleteChunksForFile filePath =>
    exact Ends.bind ((deleteChunksForFile_spec filePath hs).mono (fun _ _ hq => hq) fun _ _ hr => hr) fun _ _ hd =>
      Ends.pure hd.1
  | repairFtsSidecar => exact repairFtsSidecar_sound hs
  | beginBatch => exact beginBatch_sound hs
  | finishBatch => exact finishBatch_sound hs
  | abandonBatch => exact Ends.lastUpdate hs.rollback

theorem sidecarStep_sound {a : Op × List (Option Fault)} (hs : Sound h) (hstep : sidecarStep h a = .next h') :
    Sound h' := by
  unfold sidecarStep at hstep
  split at hstep
  · next henabled =>
    cases hstep
    have hpost := call_sound hs henabled a.2
    unfold Post at hpost
    split at hpost <;> exact hpost
  · cases hstep

/-- A handle on tables an older binary may have left diverged: it remembers nothing and no transaction is open. -/
def opening (t : ChunkTables) : Handle := ⟨t, none, {}⟩

theorem opening_sound {t : ChunkTables} (hc : t.Consistent) : Sound (opening t) where
  current := hc
  saved := by rintro _ ⟨⟩
  remembered := by rintro _ ⟨⟩
  unwritten := by rintro _ _ _ ⟨⟩

theorem reached_sound {t : ChunkTables} (hc : t.Consistent) (hrun : Steps sidecarStep (opening t) h) : Sound h :=
  hrun.invariant (fun _ _ _ hs hstep => sidecarStep_sound hs hstep) (opening_sound hc)

theorem call_steps (op : Op) (henabled : op.enabled h = true) : Ends op.call h
    (fun _ h' => Steps sidecarStep h h') (fun _ h' => Steps sidecarStep h h') := by
  intro faults
  have hstep : Steps sidecarStep h (op.call ⟨h, faults⟩).2.state := .single (op, faults) (if_pos henabled)
  unfold Post
  split <;> exact hstep

/-- A batch is its beginning, what its closure did, and one of its two ends. -/
theorem executeBatch_steps {f : Sql Unit}
    (hf : ∀ h, Ends f h (fun _ h' => Steps sidecarStep h h') (fun _ h' => Steps sidecarStep h h')) :
    Ends (executeBatch f) h (fun _ h' => Steps sidecarStep h h') (fun _ h' => Steps sidecarStep h h') := by
  refine Ends.bind (call_steps .beginBatch rfl) fun _ h₁ h₀₁ => ?_
  have hclosure : Ends (tryCatch f fun e => do
      abandonBatch
      throw e) h₁ (fun _ h' => Steps sidecarStep h h') (fun _ h' => Steps sidecarStep h h') := by
    refine Ends.tryCatch ((hf h₁).mono (fun _ _ h₁₂ => h₀₁.trans h₁₂) fun _ _ h₁₂ => h₀₁.trans h₁₂) fun e h₂ h₀₂ => ?_
    exact Ends.update (Ends.throw (h₀₂.tail (.abandonBatch, []) rfl))
  refine Ends.bind hclosure fun _ h₂ h₀₂ => ?_
  exact (call_steps .finishBatch rfl).mono (fun _ _ h₂₃ => h₀₂.trans h₂₃) fun _ _ h₂₃ => h₀₂.trans h₂₃

/-- What a successful delete leaves: the chunk and FTS rows of every other path as they were, and path rows
that mirror the chunk table; the path rows of other paths change only if they did not mirror it before. -/
structure Deleted (filePath : String) (t t' : ChunkTables) : Prop where
  chunks : t'.chunks = t.chunks.filter (·.text.filePath ≠ filePath)
  fts : t'.ftsRows = t.ftsRows.filter (·.text.filePath ≠ filePath)
  noPath : ∀ p ∈ t'.pathRows, p.filePath ≠ filePath
  mirror : t'.PathsMirror
  paths : t.PathsMirror → t'.pathRows = t.pathRows.filter (·.filePath ≠ filePath)

theorem deleted_of_ensured {filePath : String} {sync : SidecarSync} {h₁ : Handle} (he : Ensured h sync h₁) :
    Deleted filePath h.current (withoutPath filePath h₁.current) where
  chunks := by rw [← he.chunks]; rfl
  fts := by rw [withoutPath_ftsRows, ftsRows, he.fts, ftsRows]
  noPath := by
    intro p hp
    rw [withoutPath_pathRows] at hp
    exact of_decide_eq_true (List.mem_filter.mp hp).2
  mirror := (withoutPath_mirrors he.sound.current he.mirrors).1
  paths hm := by rw [withoutPath_pathRows, he.paths hm]

theorem verdicts_survive_rollbacks {t : ChunkTables} (hc : t.Consistent) {h : Handle}
    (hrun : Steps sidecarStep (opening t) h) :
    (h.isAutocommit = true → ∀ sync ∈ h.memory.sync,
      h.current.PathsMirror ∧ (sync.ftsByRowid = true → h.current.FtsMirrors)) ∧
    ∀ filePath faults n w, deleteChunksForFile filePath ⟨h, faults⟩ = (.ok n, w) →
      Deleted filePath h.current w.state.current := by
  have hs := reached_sound hc hrun
  refine ⟨fun _ sync hsync => (hs.remembered sync hsync).1, fun filePath faults n w hdelete => ?_⟩
  have hpost := deleteChunksForFile_spec filePath hs faults
  rw [Post, hdelete] at hpost
  obtain ⟨-, sync, h₁, hensured, hw⟩ := hpost
  rw [hw]
  exact deleted_of_ensured hensured

end Runs

/-- One chunk whose path row an older binary did not write. -/
def unmirrored : ChunkTables :=
  { seq := 1, chunks := [⟨1, ⟨"", "b", "rust", 1, 1⟩, []⟩], fts := some [⟨1, ⟨"", "b", "rust", 1, 1⟩⟩], paths := some [] }

theorem unmirrored_consistent : unmirrored.Consistent where
  chunksUnique := by decide
  ftsUnique := by decide
  pathsUnique := by decide
  counter := by decide
  ftsNames := by decide
  pathNames := by decide

/-- A rebuild in a batch that is rolled back is not remembered; once committed it is. -/
theorem verdicts_survive_rollbacks_unmirrored : ∃ h, Steps sidecarStep (opening unmirrored) h ∧
    h.memory.sync = some ⟨true⟩ ∧ h.current.PathsMirror := by
  have hreach := steps_of_run sidecarStep (opening unmirrored)
    [(.beginBatch, []), (.deleteChunksForFile "a", []), (.abandonBatch, []), (.beginBatch, []),
      (.deleteChunksForFile "a", []), (.finishBatch, []), (.ensureSidecars none, [])]
    (fun h => h.memory.sync = some ⟨true⟩ && h.isAutocommit) (by decide +kernel)
  obtain ⟨h, hrun, htest⟩ := hreach
  rw [Bool.and_eq_true, decide_eq_true_eq] at htest
  exact ⟨h, hrun, htest.1, ((verdicts_survive_rollbacks unmirrored_consistent hrun).1 htest.2 _ htest.1).1⟩

/-- A delete of a path with no chunk writes the missing path row of another path. -/
theorem delete_writes_other_path_row :
    (opening unmirrored).current.pathRows = [] ∧
      ((deleteChunksForFile "a" ⟨opening unmirrored, []⟩).1.toOption = some 0) ∧
      (deleteChunksForFile "a" ⟨opening unmirrored, []⟩).2.state.current.pathRows = [⟨1, "b"⟩] := by
  decide +kernel

end Storage
end CodeSage
