import CodeSage.Parser.HashCache
import Mathlib.Algebra.Order.Ring.Int

/-!
# CodeSage.Parser.HashCacheCorrect

A reused hash is the hash of what the file held when the reusing call took its `stat`, where the resolution of the
change times divides a second. The invariant is about one cache entry: as long as its file has the change time of
the entry, and that lies in a second before the one the entry was made in, the file has the content the entry is
about. A write after the entry was made has a change time in the second of that moment, or later.

With a resolution that divides no second the guard fails: a tick of 700 milliseconds begins in one second and ends in
the next.
-/

namespace CodeSage
namespace Parser
namespace HashCache

open Lib

section Times

theorem second_truncated {resolution : Int} (hpos : 0 < resolution) (hdvd : resolution ∣ 1000000000) (t : Int) :
    second (truncated resolution t) = second t := by
  obtain ⟨k, hk⟩ := hdvd
  rw [second, second, truncated, hk, ← Int.ediv_ediv_of_nonneg hpos.le, ← Int.ediv_ediv_of_nonneg hpos.le,
    Int.mul_ediv_cancel _ hpos.ne']

theorem second_mono {a b : Int} (h : a ≤ b) : second a ≤ second b := Int.ediv_le_ediv (by decide) h

theorem toI64_some {n m : Int} (h : toI64 n = some m) : m = n := by
  unfold toI64 at h
  split at h
  · exact (Option.some.inj h).symm
  · cases h

theorem nowNs_some {clock now : Int} (h : nowNs clock = some now) : now = clock := by
  unfold nowNs at h
  split at h
  · exact toI64_some h
  · cases h

theorem nanoseconds_some {secs nsec ns : Int} (h : nanoseconds secs nsec = some ns) :
    ns = secs * 1000000000 + nsec := by
  obtain ⟨whole, hwhole, h⟩ := Option.bind_eq_some_iff.mp h
  rw [toI64_some h, toI64_some hwhole]

/-- The change time that is compared is that of the file. -/
theorem fileStat_ctime {file : File} {stat : FileStat} (h : fileStat file.metadata = some stat) :
    stat.ctimeNs = file.ctimeNs := by
  simp only [fileStat, Option.bind_eq_bind, Option.bind_eq_some_iff, Option.pure_def, Option.some.injEq] at h
  obtain ⟨size, -, mtimeNs, -, ctimeNs, hctime, rfl⟩ := h
  rw [nanoseconds_some hctime]
  simp only [File.metadata, second]
  omega

end Times

section Table

variable {Path : Type} [DecidableEq Path] {previous : Table Path CachedFileHash} {rows : List (Path × CachedFileHash)}
  {path : Path}

def upsert (previous table : Table Path CachedFileHash) (row : Path × CachedFileHash) : Table Path CachedFileHash :=
  if previous.lookup row.1 = some row.2 then table else table.insert row.1 row.2

theorem lookup_upsert_ne {table : Table Path CachedFileHash} {row : Path × CachedFileHash} (hne : path ≠ row.1) :
    (upsert previous table row).lookup path = table.lookup path := by
  unfold upsert
  split
  · rfl
  · rw [lookup_insert, if_neg hne]

theorem lookup_foldl_upsert_of_notMem : ∀ {table : Table Path CachedFileHash}, path ∉ rows.map Prod.fst →
    (rows.foldl (upsert previous) table).lookup path = table.lookup path := by
  induction rows with
  | nil => exact fun _ => rfl
  | cons row rows ih =>
    intro table hpath
    rw [List.map_cons, List.mem_cons, not_or] at hpath
    rw [List.foldl_cons, ih hpath.2, lookup_upsert_ne hpath.1]

theorem lookup_foldl_upsert_of_mem {entry : CachedFileHash} : ∀ {table : Table Path CachedFileHash},
    (rows.map Prod.fst).Nodup → (path, entry) ∈ rows → table.lookup path = previous.lookup path →
      (rows.foldl (upsert previous) table).lookup path = some entry := by
  induction rows with
  | nil => exact fun _ hmem => nomatch hmem
  | cons row rows ih =>
    intro table hnodup hmem htable
    rw [List.map_cons, List.nodup_cons] at hnodup
    rw [List.foldl_cons]
    rcases List.mem_cons.mp hmem with rfl | hmem
    · rw [lookup_foldl_upsert_of_notMem hnodup.1, upsert]
      split
      · rename_i hkept
        rw [htable, hkept]
      · rw [lookup_insert, if_pos rfl]
    · have hne : path ≠ row.1 := fun heq => hnodup.1 (List.mem_map.mpr ⟨_, hmem, heq⟩)
      exact ih hnodup.2 hmem ((lookup_upsert_ne hne).trans htable)

/-- Afterwards the table holds the entries. -/
theorem lookup_replaceFileHashCache (previous entries : Table Path CachedFileHash) (path : Path) :
    (replaceFileHashCache previous entries).lookup path = entries.lookup path := by
  have hfold : replaceFileHashCache previous entries = entries.rows.foldl (upsert previous)
      (previous.deleteWhere fun path => (entries.lookup path).isNone) := rfl
  rw [hfold]
  cases hentry : entries.lookup path with
  | none =>
    have hnot : path ∉ entries.rows.map Prod.fst := by
      rw [Table.keys_rows, ← AList.mem_keys, mem_iff_lookup, not_not]
      exact hentry
    rw [lookup_foldl_upsert_of_notMem hnot, Table.lookup_deleteWhere, hentry]
    rfl
  | some entry =>
    refine lookup_foldl_upsert_of_mem entries.nodup_rows (Table.mem_rows.mpr hentry) ?_
    rw [Table.lookup_deleteWhere, hentry]
    rfl

end Table

section Invariant

variable {Path : Type} {contentHash : Content → String} {resolution : Int} {s s' : State Path} {path : Path}

/-- The change time of an entry lies in a second before the one the entry was made in. -/
def Settled (stat : FileStat) (hashedAtNs : Int) : Prop := second stat.ctimeNs < second hashedAtNs

/-- An entry as it stands to its file. -/
structure Sound (contentHash : Content → String) (s : State Path) (path : Path) (entry : CachedFileHash) : Prop where
  past : entry.hashedAtNs ≤ s.now
  current : ∀ file, s.files path = some file → file.ctimeNs = entry.stat.ctimeNs →
    Settled entry.stat entry.hashedAtNs → entry.contentHash = contentHash file.content

/-- What time and writes may do to the files. -/
structure Later (resolution : Int) (s s' : State Path) : Prop where
  clock : s.now ≤ s'.now
  files : ∀ path file, s'.files path = some file →
    s.files path = some file ∨ ∃ t, s.now ≤ t ∧ file.ctimeNs = truncated resolution t

theorem Later.of_files (hnow : s'.now = s.now) (hfiles : s'.files = s.files) : Later resolution s s' :=
  ⟨hnow.ge, fun _ _ h => .inl (hfiles ▸ h)⟩

/-- A file whose change time is settled for an entry has not been written since the entry was made. -/
theorem Later.unwritten (hpos : 0 < resolution) (hdvd : resolution ∣ 1000000000) (h : Later resolution s s')
    {file : File} (hfile : s'.files path = some file) {hashedAtNs : Int} (hpast : hashedAtNs ≤ s.now)
    (hsettled : second file.ctimeNs < second hashedAtNs) : s.files path = some file := by
  rcases h.files path file hfile with hold | ⟨t, ht, hctime⟩
  · exact hold
  · rw [hctime, second_truncated hpos hdvd] at hsettled
    exact absurd (second_mono (hpast.trans ht)) (not_le.mpr hsettled)

theorem Sound.later (hpos : 0 < resolution) (hdvd : resolution ∣ 1000000000) {entry : CachedFileHash}
    (h : Sound contentHash s path entry) (hlater : Later resolution s s') : Sound contentHash s' path entry where
  past := h.past.trans hlater.clock
  current file hfile hctime hsettled := by
    have hsame : second file.ctimeNs < second entry.hashedAtNs := hctime ▸ hsettled
    exact h.current file (hlater.unwritten hpos hdvd hfile h.past hsame) hctime hsettled

/-- A call as it stands to its file and to the cache of its run. -/
def CallOk (contentHash : Content → String) (s : State Path) (cache : Table Path CachedFileHash) [DecidableEq Path]
    (path : Path) : Call → Prop
  | .absent => True
  | .opened before seen => ∀ entry, cache.lookup path = some entry → fileStat before = some entry.stat →
      Settled entry.stat entry.hashedAtNs → entry.contentHash = contentHash seen
  | .started before seen started => (∀ entry, cache.lookup path = some entry → fileStat before = some entry.stat →
      Settled entry.stat entry.hashedAtNs → entry.contentHash = contentHash seen) ∧
      ∀ hashedAtNs, started = some hashedAtNs → hashedAtNs ≤ s.now
  | .reusing entry _ seen => Sound contentHash s path entry ∧ entry.contentHash = contentHash seen
  | .reading _ started => ∀ hashedAtNs, started = some hashedAtNs → hashedAtNs ≤ s.now
  | .bytesRead before started bytes => ∀ entry, observe before started (contentHash bytes) = some entry →
      Sound contentHash s path entry
  | .hashed hash reused => ∀ seen, reused = some seen → hash = contentHash seen

theorem CallOk.later [DecidableEq Path] (hpos : 0 < resolution) (hdvd : resolution ∣ 1000000000) {call : Call}
    {cache : Table Path CachedFileHash} (h : CallOk contentHash s cache path call) (hlater : Later resolution s s') :
    CallOk contentHash s' cache path call := by
  cases call with
  | absent => trivial
  | opened before seen => exact h
  | started before seen started => exact ⟨h.1, fun hashedAtNs hstarted => (h.2 hashedAtNs hstarted).trans hlater.clock⟩
  | reusing entry before seen => exact ⟨h.1.later hpos hdvd hlater, h.2⟩
  | reading before started => exact fun hashedAtNs hstarted => (h hashedAtNs hstarted).trans hlater.clock
  | bytesRead before started bytes => exact fun entry hentry => (h entry hentry).later hpos hdvd hlater
  | hashed hash reused => exact h

section Runs

variable [DecidableEq Path]

structure RunOk (contentHash : Content → String) (s : State Path) (run : Run Path) : Prop where
  cache : ∀ path entry, run.cache.lookup path = some entry → Sound contentHash s path entry
  calls : ∀ path, CallOk contentHash s run.cache path (run.call path)
  observations : ∀ path entry, run.observations.lookup path = some entry → Sound contentHash s path entry

/-- Every entry is sound, in the table and in the runs. -/
structure Invariant (contentHash : Content → String) (s : State Path) : Prop where
  stored : ∀ path entry, s.stored.lookup path = some entry → Sound contentHash s path entry
  runs : ∀ r run, s.runs r = some run → RunOk contentHash s run

variable {run : Run Path}

theorem RunOk.later (hpos : 0 < resolution) (hdvd : resolution ∣ 1000000000) (h : RunOk contentHash s run)
    (hlater : Later resolution s s') : RunOk contentHash s' run where
  cache path entry hentry := (h.cache path entry hentry).later hpos hdvd hlater
  calls path := (h.calls path).later hpos hdvd hlater
  observations path entry hentry := (h.observations path entry hentry).later hpos hdvd hlater

theorem RunOk.setCall (h : RunOk contentHash s run) {call : Call} (hcall : CallOk contentHash s run.cache path call) :
    RunOk contentHash s (run.setCall path call) where
  cache := h.cache
  calls other := by
    change CallOk contentHash s run.cache other (Function.update run.call path call other)
    by_cases heq : other = path
    · subst heq
      rw [Function.update_self]
      exact hcall
    · rw [Function.update_of_ne heq]
      exact h.calls other
  observations := h.observations

theorem RunOk.return (h : RunOk contentHash s run) {hash : String} {observation : Option CachedFileHash}
    {reused : Option Content} (hreused : ∀ seen, reused = some seen → hash = contentHash seen)
    (hobservation : ∀ entry, observation = some entry → Sound contentHash s path entry) :
    RunOk contentHash s (run.return path hash observation reused) := by
  have hset : RunOk contentHash s (run.setCall path (.hashed hash reused)) := h.setCall hreused
  cases observation with
  | none => exact hset
  | some entry =>
    refine ⟨hset.cache, hset.calls, fun other found hfound => ?_⟩
    change (run.observations.insert path entry).lookup other = some found at hfound
    rw [lookup_insert] at hfound
    split at hfound
    · rename_i heq
      subst heq
      cases hfound
      exact hobservation _ rfl
    · exact h.observations other found hfound

/-- An entry that passes the guard is settled. -/
theorem settled_of_reusable {cached : CachedFileHash} {stat : FileStat} {now : Int}
    (h : cached.reusable stat now = true) : cached.stat = stat ∧ Settled cached.stat cached.hashedAtNs := by
  simp only [CachedFileHash.reusable, Bool.and_eq_true, decide_eq_true_eq] at h
  obtain ⟨⟨⟨rfl, -⟩, -⟩, hsettled⟩ := h
  exact ⟨rfl, hsettled⟩

/-- The choice of a call. -/
theorem callOk_choose (hrun : RunOk contentHash s run) {before : Metadata} {seen : Content} {started : Option Int}
    (h : CallOk contentHash s run.cache path (.started before seen started)) :
    CallOk contentHash s run.cache path (choose (run.cache.lookup path) before seen started) := by
  unfold choose
  split
  · rename_i cached stat now hcached hstat
    split
    · rename_i hreusable
      obtain ⟨rfl, hsettled⟩ := settled_of_reusable hreusable
      exact ⟨hrun.cache path cached hcached, h.1 cached hcached hstat hsettled⟩
    · exact h.2
  · exact h.2

theorem observe_some {before : Metadata} {started : Option Int} {hash : String} {entry : CachedFileHash}
    (h : observe before started hash = some entry) : started = some entry.hashedAtNs ∧ entry.contentHash = hash := by
  simp only [observe, Option.bind_eq_some_iff, Option.map_eq_some_iff] at h
  obtain ⟨stat, -, hashedAtNs, hstarted, rfl⟩ := h
  exact ⟨hstarted, rfl⟩

/-- What a read observes is sound when the bytes are read. -/
theorem callOk_bytesRead {file : File} (hfile : s.files path = some file) {before : Metadata} {started : Option Int}
    (h : ∀ hashedAtNs, started = some hashedAtNs → hashedAtNs ≤ s.now) {cache : Table Path CachedFileHash} :
    CallOk contentHash s cache path (.bytesRead before started file.content) := by
  intro entry hentry
  obtain ⟨hstarted, hhash⟩ := observe_some hentry
  refine ⟨h _ hstarted, fun other hother _ _ => ?_⟩
  rw [hfile] at hother
  cases hother
  exact hhash

theorem advance_ok (hrun : RunOk contentHash s run) {run' : Run Path}
    (h : advance contentHash s run path = .next run') : RunOk contentHash s run' := by
  have hcall := hrun.calls path
  have habsent : RunOk contentHash s (run.setCall path .absent) := hrun.setCall trivial
  unfold advance at h
  split at h
  · cases h
  · rename_i before seen heq
    rw [heq] at hcall
    cases h
    refine hrun.setCall ⟨hcall, fun hashedAtNs hstarted => ?_⟩
    exact (nowNs_some hstarted).le
  · rename_i before seen started heq
    rw [heq] at hcall
    cases h
    exact hrun.setCall (callOk_choose hrun hcall)
  · rename_i cached before seen heq
    rw [heq] at hcall
    split at h
    · cases h
      refine hrun.return (fun content hcontent => ?_) fun entry hentry => ?_
      · cases hcontent
        exact hcall.2
      · cases hentry
        exact hcall.1
    · cases h
      exact habsent
  · rename_i before started heq
    rw [heq] at hcall
    split at h
    · cases h
      exact habsent
    · rename_i file hfile
      split at h
      · cases h
        exact habsent
      · cases h
        exact hrun.setCall (callOk_bytesRead hfile hcall)
  · rename_i before started bytes heq
    rw [heq] at hcall
    split at h
    · obtain rfl := Outcome.next.inj h
      exact hrun.return (fun _ hnone => nomatch hnone) hcall
    · cases h
      exact habsent
  · cases h

theorem Invariant.later (hpos : 0 < resolution) (hdvd : resolution ∣ 1000000000) (h : Invariant contentHash s)
    (hlater : Later resolution s s') (hstored : s'.stored = s.stored) (hruns : s'.runs = s.runs) :
    Invariant contentHash s' where
  stored path entry hentry := (h.stored path entry (hstored ▸ hentry)).later hpos hdvd hlater
  runs r run hrun := (h.runs r run (hruns ▸ hrun)).later hpos hdvd hlater

theorem Invariant.setRun (h : Invariant contentHash s) {r : Nat} {run : Option (Run Path)}
    (hrun : ∀ run', run = some run' → RunOk contentHash s run') : Invariant contentHash (s.setRun r run) := by
  have hsame : ∀ path entry, Sound contentHash s path entry → Sound contentHash (s.setRun r run) path entry :=
    fun _ _ hsound => ⟨hsound.past, hsound.current⟩
  have hcalls : ∀ {cache : Table Path CachedFileHash} path call, CallOk contentHash s cache path call →
      CallOk contentHash (s.setRun r run) cache path call := by
    intro cache path call hcall
    cases call with
    | reusing entry before seen => exact ⟨hsame path entry hcall.1, hcall.2⟩
    | bytesRead before started bytes => exact fun entry hentry => hsame path entry (hcall entry hentry)
    | _ => exact hcall
  have hkeep : ∀ run', RunOk contentHash s run' → RunOk contentHash (s.setRun r run) run' := fun run' hrun' =>
    ⟨fun path entry hentry => hsame path entry (hrun'.cache path entry hentry),
      fun path => hcalls path _ (hrun'.calls path),
      fun path entry hentry => hsame path entry (hrun'.observations path entry hentry)⟩
  refine ⟨fun path entry hentry => hsame path entry (h.stored path entry hentry), fun r' run' hrun' => hkeep run' ?_⟩
  change Function.update s.runs r run r' = some run' at hrun'
  by_cases heq : r' = r
  · subst heq
    rw [Function.update_self] at hrun'
    exact hrun run' hrun'
  · rw [Function.update_of_ne heq] at hrun'
    exact h.runs r' run' hrun'

theorem later_write (content : Content) (mtimeNs : Int) : Later resolution s { s with
    files := Function.update s.files path (some ⟨content, mtimeNs, truncated resolution s.now⟩) } := by
  refine ⟨le_refl _, fun other file hfile => ?_⟩
  change Function.update s.files path _ other = some file at hfile
  by_cases heq : other = path
  · subst heq
    rw [Function.update_self] at hfile
    cases hfile
    exact .inr ⟨s.now, le_refl _, rfl⟩
  · rw [Function.update_of_ne heq] at hfile
    exact .inl hfile

theorem callOk_opened (hrun : RunOk contentHash s run) {file : File} (hfile : s.files path = some file) :
    CallOk contentHash s run.cache path (.opened file.metadata file.content) := fun entry hentry hstat hsettled =>
  (hrun.cache path entry hentry).current file hfile (fileStat_ctime hstat).symm hsettled

theorem Invariant.step (hpos : 0 < resolution) (hdvd : resolution ∣ 1000000000) (h : Invariant contentHash s)
    {a : Act Path} (hstep : step contentHash resolution s a = .next s') : Invariant contentHash s' := by
  cases a with
  | tick ns =>
    cases hstep
    exact h.later hpos hdvd ⟨Int.le_add_of_nonneg_right (Int.natCast_nonneg ns), fun _ _ hfile => .inl hfile⟩ rfl rfl
  | write path content mtimeNs =>
    cases hstep
    exact h.later hpos hdvd (later_write content mtimeNs) rfl rfl
  | start r =>
    simp only [HashCache.step] at hstep
    split at hstep
    · cases hstep
      refine h.setRun fun run hrun => ?_
      cases hrun
      exact ⟨h.stored, fun _ => trivial, fun _ _ hnone => nomatch hnone⟩
    · cases hstep
  | openFile r path =>
    simp only [HashCache.step] at hstep
    split at hstep
    · rename_i run file hrun hfile
      split at hstep
      · split at hstep
        · cases hstep
          exact h
        · cases hstep
          refine h.setRun fun run' hrun' => ?_
          cases hrun'
          exact (h.runs r run hrun).setCall (callOk_opened (h.runs r run hrun) hfile)
      · cases hstep
    · cases hstep
  | advance r path =>
    simp only [HashCache.step] at hstep
    split at hstep
    · cases hstep
    · rename_i run hrun
      obtain ⟨run', hadvance, hnext⟩ := Outcome.andThen_eq_next.mp hstep
      cases hnext
      refine h.setRun fun run'' hrun'' => ?_
      cases hrun''
      exact advance_ok (h.runs r run hrun) hadvance
  | fail r path =>
    simp only [HashCache.step] at hstep
    split at hstep
    · cases hstep
    · rename_i run hrun
      cases hstep
      refine h.setRun fun run' hrun' => ?_
      cases hrun'
      exact (h.runs r run hrun).setCall trivial
  | finish r =>
    simp only [HashCache.step] at hstep
    split at hstep
    · cases hstep
    · rename_i run hrun
      cases hstep
      have hset : Invariant contentHash (s.setRun r none) := h.setRun fun _ hnone => nomatch hnone
      refine ⟨fun path entry hentry => ?_, fun r' run' hrun' => ?_⟩
      · rw [lookup_replaceFileHashCache] at hentry
        have hsound := (h.runs r run hrun).observations path entry hentry
        exact ⟨hsound.past, hsound.current⟩
      · exact (hset.runs r' run' hrun').later hpos hdvd (Later.of_files rfl rfl)
  | abandon r =>
    cases hstep
    exact h.setRun fun _ hnone => nomatch hnone

end Runs

end Invariant

section Main

variable {Path : Type} [DecidableEq Path] {contentHash : Content → String} {resolution : Int} {s s' : State Path}

theorem invariant_of_initial (h : Initial s) : Invariant contentHash s where
  stored path entry hentry := by
    rw [h.stored] at hentry
    cases hentry
  runs r run hrun := by
    rw [h.runs r] at hrun
    cases hrun

/-- In any interleaving of runs and writes a reused hash is that of what the call found at its `stat`. -/
theorem reused_hash_current (hpos : 0 < resolution) (hdvd : resolution ∣ 1000000000) (hinit : Initial s)
    (hsteps : Steps (step contentHash resolution) s s') {r : Nat} {run : Run Path} (hrun : s'.runs r = some run)
    {path : Path} {hash : String} {seen : Content} (hcall : run.call path = .hashed hash (some seen)) :
    hash = contentHash seen := by
  have hinv : Invariant contentHash s' :=
    hsteps.invariant (fun _ _ _ h hstep => h.step hpos hdvd hstep) (invariant_of_initial hinit)
  have hok := (hinv.runs r run hrun).calls path
  rw [hcall] at hok
  exact hok seen rfl

end Main

section Example

/-- A content as a text stands for its hash. -/
def asText (content : Content) : String := String.ofList (content.map fun b => Char.ofNat b.toNat)

/-- Nothing is cached; the clock is at `now`. -/
def emptyAt (now : Int) : State String := ⟨now, fun _ => none, ∅, fun _ => none⟩

theorem emptyAt_initial (now : Int) : Initial (emptyAt now) := ⟨rfl, fun _ => rfl⟩

/-- A run over `a.rs`, up to the hash. -/
def hashing (run : Nat) : List (Act String) :=
  [.start run, .openFile run "a.rs", .advance run "a.rs", .advance run "a.rs", .advance run "a.rs"]

def callOf (r : Nat) (s : State String) : Option Call := (s.runs r).map fun run => run.call "a.rs"

def reusedBy (r : Nat) (s : State String) : Option (String × Content) :=
  match callOf r s with
  | some (.hashed hash (some seen)) => some (hash, seen)
  | _ => none

theorem call_of_reusedBy {r : Nat} {s : State String} {reuse : String × Content} (h : reusedBy r s = some reuse) :
    ∃ run, s.runs r = some run ∧ run.call "a.rs" = .hashed reuse.1 (some reuse.2) := by
  unfold reusedBy at h
  split at h
  · rename_i hash seen hcall
    cases h
    obtain ⟨run, hrun, hcall⟩ := Option.map_eq_some_iff.mp hcall
    exact ⟨run, hrun, hcall⟩
  · cases h

/-- A file written two seconds before it is first read. -/
def settledTrace : List (Act String) :=
  [.write "a.rs" [65] 0, .tick 2000000000] ++ hashing 0 ++ [.advance 0 "a.rs", .finish 0] ++ hashing 1

theorem reused_hash_current_for_a_settled_file : ∃ (s : State String) (run : Run String) (hash : String) (seen : Content),
    Steps (step asText 1000000) (emptyAt 0) s ∧ s.runs 1 = some run ∧ run.call "a.rs" = .hashed hash (some seen) ∧
    hash = asText seen := by
  obtain ⟨s, hsteps, hreused⟩ := steps_of_run (step asText 1000000) (emptyAt 0) settledTrace
    (fun s => decide (reusedBy 1 s = some ("A", [65]))) (by decide)
  obtain ⟨run, hrun, hcall⟩ := call_of_reusedBy (of_decide_eq_true hreused)
  exact ⟨s, run, _, _, hsteps, hrun, hcall,
    reused_hash_current (by decide) (by decide) (emptyAt_initial 0) hsteps hrun hcall⟩

/-- With a tick of 700 milliseconds, a write one second in has the change time of one at 700 milliseconds. -/
def straddlingTrace : List (Act String) :=
  [.write "a.rs" [65] 0, .tick 300000000] ++ hashing 0 ++ [.advance 0 "a.rs", .write "a.rs" [66] 0, .finish 0] ++ hashing 1

/-- The cached hash of the content before a write is reused after it. -/
theorem reused_hash_stale : ∃ resolution : Int, 0 < resolution ∧ resolution ≤ 1000000000 ∧
    ∃ (s s' : State String) (run : Run String) (hash : String) (seen : Content), Initial s ∧
      Steps (step asText resolution) s s' ∧ s'.runs 1 = some run ∧ run.call "a.rs" = .hashed hash (some seen) ∧
      hash ≠ asText seen := by
  obtain ⟨s, hsteps, hreused⟩ := steps_of_run (step asText 700000000) (emptyAt 700000000) straddlingTrace
    (fun s => decide (reusedBy 1 s = some ("A", [66]))) (by decide)
  obtain ⟨run, hrun, hcall⟩ := call_of_reusedBy (of_decide_eq_true hreused)
  exact ⟨700000000, by decide, by decide, emptyAt 700000000, s, run, _, _, emptyAt_initial _, hsteps, hrun, hcall,
    by decide⟩

end Example

end HashCache
end Parser
end CodeSage
