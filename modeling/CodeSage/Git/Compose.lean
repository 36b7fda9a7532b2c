import CodeSage.Git.Passes

/-!
# CodeSage.Git.Compose

Passes over commits without renames. The first pass scans in full, the others add what is new; the order
in which the commits are listed and the cuts between the passes leave no trace in the tables
(`passes_compose`).
-/

namespace CodeSage
namespace Git

open Lib

variable {policy : Policy}

section Order

theorem max?_perm {xs ys : List Int} (h : xs.Perm ys) : xs.max? = ys.max? := by
  induction h with
  | nil => rfl
  | cons x _ ih => rw [List.max?_cons, List.max?_cons, ih]
  | swap x y l =>
    simp only [List.max?_cons]
    cases l.max? with
    | none => simp [max_comm]
    | some m => simp [max_left_comm]
  | trans _ _ ih₁ ih₂ => exact ih₁.trans ih₂

theorem min?_perm {xs ys : List Int} (h : xs.Perm ys) : xs.min? = ys.min? := by
  induction h with
  | nil => rfl
  | cons x _ ih => rw [List.min?_cons, List.min?_cons, ih]
  | swap x y l =>
    simp only [List.min?_cons]
    cases l.min? with
    | none => simp [min_comm]
    | some m => simp [min_left_comm]
  | trans _ _ ih₁ ih₂ => exact ih₁.trans ih₂

theorem maskOf_perm {xs ys : List Keyed} (h : xs.Perm ys) : maskOf xs = maskOf ys := by
  induction h with
  | nil => rfl
  | cons k _ ih => exact congrArg (windowBit k.timestamp ||| ·) ih
  | swap j k l =>
    change windowBit k.timestamp ||| (windowBit j.timestamp ||| maskOf l) =
      windowBit j.timestamp ||| (windowBit k.timestamp ||| maskOf l)
    rw [← UInt64.or_assoc, UInt64.or_comm (windowBit k.timestamp), UInt64.or_assoc]
  | trans _ _ ih₁ ih₂ => exact ih₁.trans ih₂

theorem fileStatsOf_perm {xs ys : List Keyed} (h : xs.Perm ys) : fileStatsOf xs = fileStatsOf ys := by
  have hmax : (timestamps xs).max? = (timestamps ys).max? := max?_perm (h.map Keyed.timestamp)
  rw [fileStatsOf, fileStatsOf, h.countP_eq, h.length_eq, hmax]

theorem pairStatsOf_perm {xs ys : List Keyed} (h : xs.Perm ys) : pairStatsOf xs = pairStatsOf ys := by
  have hmin : (timestamps xs).min? = (timestamps ys).min? := min?_perm (h.map Keyed.timestamp)
  have hmax : (timestamps xs).max? = (timestamps ys).max? := max?_perm (h.map Keyed.timestamp)
  rw [pairStatsOf, pairStatsOf, h.length_eq, maskOf_perm h, hmin, hmax]

theorem summarize_perm {ν : Type} {f : List Keyed → ν} {xs ys : List Keyed} (h : xs.Perm ys) (hf : f xs = f ys) :
    summarize f xs = summarize f ys := by
  by_cases hxs : xs = []
  · subst hxs
    rw [h.nil_eq]
  · unfold summarize
    rw [if_neg hxs, if_neg fun hys => hxs (by rw [hys] at h; exact h.eq_nil), hf]

/-- With one commit per name, an event is the event of a commit. -/
theorem eventContent_eq_some {ks : List Keyed} (hsha : (ks.map Keyed.sha).Nodup) {path sha : String}
    {event : AuthorEvent} :
    eventContent ks path sha = some event ↔ ∃ k ∈ ks, k.sha = sha ∧ path ∈ k.paths ∧ eventOf k = event := by
  constructor
  · intro h
    obtain ⟨k, hfind, heq⟩ := Option.map_eq_some_iff.mp h
    have hprop := List.find?_some hfind
    have hmem := List.mem_reverse.mp (List.mem_of_find?_eq_some hfind)
    rw [decide_eq_true_eq] at hprop
    exact ⟨k, hmem, hprop.1, hprop.2, heq⟩
  · rintro ⟨k, hk, hkey, hpath, rfl⟩
    cases hfind : ks.reverse.find? fun k => k.sha = sha ∧ path ∈ k.paths with
    | none =>
      have := List.find?_eq_none.mp hfind k (List.mem_reverse.mpr hk)
      exact absurd (decide_eq_true_eq.mpr ⟨hkey, hpath⟩) this
    | some k' =>
      have hprop := List.find?_some hfind
      have hmem := List.mem_reverse.mp (List.mem_of_find?_eq_some hfind)
      rw [decide_eq_true_eq] at hprop
      have hsame : k' = k := List.inj_on_of_nodup_map hsha hmem hk (hprop.1.trans hkey.symm)
      rw [eventContent, hfind, hsame]
      rfl

theorem eventContent_perm {xs ys : List Keyed} (h : xs.Perm ys) (hsha : (xs.map Keyed.sha).Nodup)
    (path sha : String) : eventContent xs path sha = eventContent ys path sha := by
  have hsha' : (ys.map Keyed.sha).Nodup := (h.map Keyed.sha).nodup_iff.mp hsha
  ext event
  rw [eventContent_eq_some hsha, eventContent_eq_some hsha']
  simp only [h.mem_iff]

end Order

/-- The integer content of two databases is the same. -/
structure SameContent (db db' : Database) : Prop where
  files : ∀ path, db.gitFiles.lookup path = db'.gitFiles.lookup path
  pairs : ∀ pair, db.gitCoChanges.lookup pair = db'.gitCoChanges.lookup pair
  events : ∀ path sha, db.authorEvents.lookup (path, sha) = db'.authorEvents.lookup (path, sha)

theorem fileContent_perm {xs ys : List Keyed} (hperm : xs.Perm ys) (path : String) :
    fileContent xs path = fileContent ys path := by
  have htouch : (touching xs path).Perm (touching ys path) := hperm.filter _
  exact summarize_perm htouch (fileStatsOf_perm htouch)

theorem pairContent_perm {xs ys : List Keyed} (hperm : xs.Perm ys) (pair : String × String) :
    pairContent policy xs pair = pairContent policy ys pair := by
  have hshare : (sharing policy xs pair).Perm (sharing policy ys pair) := hperm.filter _
  exact summarize_perm hshare (pairStatsOf_perm hshare)

theorem Holds.perm {db : Database} {xs ys : List Keyed} (h : Holds policy db xs) (hperm : xs.Perm ys)
    (hsha : (xs.map Keyed.sha).Nodup) : Holds policy db ys where
  files path := by rw [h.files, fileContent_perm hperm]
  pairs pair := by rw [h.pairs, pairContent_perm hperm]
  events path sha := by rw [h.events, eventContent_perm hperm hsha]

theorem Holds.same {db db' : Database} {ks : List Keyed} (h : Holds policy db ks) (h' : Holds policy db' ks) :
    SameContent db db' where
  files path := by rw [h.files, h'.files]
  pairs pair := by rw [h.pairs, h'.pairs]
  events path sha := by rw [h.events, h'.events]

section Prepared

theorem mem_mergeSamePath {changes : List String} {path : String} :
    path ∈ mergeSamePath changes ↔ path ∈ changes := by
  have key : ∀ (changes merged : List String),
      path ∈ changes.foldl (fun merged path => if path ∈ merged then merged else merged ++ [path]) merged ↔
        path ∈ merged ∨ path ∈ changes := by
    intro changes
    induction changes with
    | nil => simp
    | cons head rest ih =>
      intro merged
      rw [List.foldl_cons, ih]
      split
      · rename_i hmem
        constructor
        · rintro (h | h)
          · exact .inl h
          · exact .inr (List.mem_cons_of_mem _ h)
        · rintro (h | h)
          · exact .inl h
          · rcases List.mem_cons.mp h with rfl | h
            · exact .inl hmem
            · exact .inr h
      · rw [List.mem_append, List.mem_singleton, List.mem_cons, or_assoc]
  rw [mergeSamePath, key]
  simp

theorem nodup_mergeSamePath (changes : List String) : (mergeSamePath changes).Nodup := by
  have key : ∀ (changes merged : List String), merged.Nodup →
      (changes.foldl (fun merged path => if path ∈ merged then merged else merged ++ [path]) merged).Nodup := by
    intro changes
    induction changes with
    | nil => exact fun merged h => h
    | cons head rest ih =>
      intro merged h
      rw [List.foldl_cons]
      split
      · exact ih merged h
      · rename_i hnot
        refine ih _ (List.nodup_append.mpr ⟨h, List.nodup_singleton head, ?_⟩)
        rintro a ha b hb rfl
        rw [List.mem_singleton] at hb
        exact hnot (hb ▸ ha)
  exact key changes [] List.nodup_nil

/-- The commits of a pass as they are counted. -/
def prepared (policy : Policy) (live : List String) (listing : List Commit) : List Commit :=
  remapDeadPaths live (followRenames policy listing ∅).1 (followRenames policy listing ∅).2

theorem followRenames_nodup : ∀ (listing : List Commit) (successor : Successor),
    ∀ c ∈ (followRenames policy listing successor).1, c.changes.Nodup := by
  intro listing
  induction listing with
  | nil =>
    intro successor c hc
    cases hc
  | cons commit listing ih =>
    intro successor c hc
    rcases List.mem_cons.mp hc with rfl | hc
    · exact nodup_mergeSamePath _
    · exact ih _ c hc

theorem prepared_nodup (live : List String) (listing : List Commit) :
    ∀ c ∈ prepared policy live listing, c.changes.Nodup := by
  intro c hc
  unfold prepared remapDeadPaths at hc
  split at hc
  · exact followRenames_nodup listing ∅ c hc
  · obtain ⟨c', hc', rfl⟩ := List.mem_map.mp hc
    split
    · exact nodup_mergeSamePath _
    · exact followRenames_nodup listing ∅ c' hc'

/-- A full pass leaves the content of its commits. -/
theorem runFull_holds (policy : Policy) (live : List String) (listing : List Commit) :
    ∃ db, runFull policy live listing = some db ∧ Holds policy db (keysOf policy (prepared policy live listing)) :=
  writeFull_holds (prepared_nodup live listing)

end Prepared

section WithoutRenames

/-- A commit as a pass counts it when no rename moves its paths. -/
def plain (policy : Policy) (commit : Commit) : Commit :=
  { commit with changes := mergeSamePath (commit.changes.filter fun path => !policy.excluded path) }

theorem followRenames_plain : ∀ {listing : List Commit}, (∀ c ∈ listing, c.renames = []) →
    followRenames policy listing ∅ = (listing.map (plain policy), ∅) := by
  intro listing
  induction listing with
  | nil => exact fun _ => rfl
  | cons commit listing ih =>
    intro hnone
    have hcurrent : (∅ : Successor).current = id := by
      funext path
      rfl
    have hfollow : (∅ : Successor).follow commit.renames = ∅ := by
      rw [hnone commit List.mem_cons_self]
      rfl
    rw [followRenames, hfollow, ih fun c hc => hnone c (List.mem_cons_of_mem _ hc), hcurrent, List.map_id]
    rfl

theorem prepared_plain (live : List String) {listing : List Commit} (hnone : ∀ c ∈ listing, c.renames = []) :
    prepared policy live listing = listing.map (plain policy) := by
  rw [prepared, followRenames_plain hnone]
  rfl

/-- The commits that count, with the paths they count for. -/
def counted (policy : Policy) (commits : List Commit) : List Keyed := keysOf policy (commits.map (plain policy))

theorem counted_append (xs ys : List Commit) : counted policy (xs ++ ys) = counted policy xs ++ counted policy ys := by
  simp [counted, keysOf]

theorem sha_of_keyedOf {commit : Commit} {k : Keyed} (h : keyedOf policy commit = some k) : k.sha = commit.sha := by
  obtain ⟨kept, -, rfl⟩ := Option.map_eq_some_iff.mp h
  rfl

theorem timestamp_of_keyedOf {commit : Commit} {k : Keyed} (h : keyedOf policy commit = some k) :
    k.timestamp = commit.timestamp := by
  obtain ⟨kept, -, rfl⟩ := Option.map_eq_some_iff.mp h
  rfl

theorem nodup_sha_keysOf {commits : List Commit} (h : (commits.map Commit.sha).Nodup) :
    ((keysOf policy commits).map Keyed.sha).Nodup := by
  induction commits with
  | nil => exact List.nodup_nil
  | cons commit commits ih =>
    rw [List.map_cons, List.nodup_cons] at h
    cases hkey : keyedOf policy commit with
    | none => simpa [keysOf, hkey] using ih h.2
    | some k =>
      have hcons : keysOf policy (commit :: commits) = k :: keysOf policy commits := by
        simp [keysOf, hkey]
      rw [hcons, List.map_cons, List.nodup_cons]
      refine ⟨fun hmem => h.1 ?_, ih h.2⟩
      obtain ⟨k', hk', hsha⟩ := List.mem_map.mp hmem
      obtain ⟨c', hc', hkey'⟩ := List.mem_filterMap.mp hk'
      rw [← sha_of_keyedOf hkey, ← hsha, sha_of_keyedOf hkey']
      exact List.mem_map_of_mem hc'

theorem nodup_sha_counted {commits : List Commit} (h : (commits.map Commit.sha).Nodup) :
    ((counted policy commits).map Keyed.sha).Nodup := by
  refine nodup_sha_keysOf ?_
  rwa [List.map_map]

theorem timestamp_counted {commits : List Commit} {k : Keyed} (h : k ∈ counted policy commits) :
    ∃ c ∈ commits, k.timestamp = c.timestamp := by
  obtain ⟨c, hc, hkey⟩ := List.mem_filterMap.mp h
  obtain ⟨c', hc', rfl⟩ := List.mem_map.mp hc
  exact ⟨c', hc', (timestamp_of_keyedOf hkey).trans rfl⟩

/-- Nothing is pruned from inside the window. -/
theorem prune_holds {db : Database} {ks : List Keyed} (h : Holds policy db ks) {cutoff : Int}
    (hin : ∀ k ∈ ks, cutoff ≤ k.timestamp) : pruneGitAuthorEvents db cutoff = db := by
  have hnone : ∀ key event, db.authorEvents.lookup key = some event → decide (event.committedAt < cutoff) = false := by
    rintro ⟨path, sha⟩ event hlookup
    rw [h.events] at hlookup
    obtain ⟨k, hfind, rfl⟩ := Option.map_eq_some_iff.mp hlookup
    have := hin k (List.mem_reverse.mp (List.mem_of_find?_eq_some hfind))
    exact decide_eq_false (not_lt.mpr this)
  rw [pruneGitAuthorEvents, Table.deleteRows_of_none hnone]

/-- An incremental pass without renames adds its commits. -/
theorem runIncremental_plain {live : List String} {cutoff : Int} {full listing : List Commit} {db : Database}
    {before : List Commit} (h : Holds policy db (counted policy before)) (hnone : ∀ c ∈ listing, c.renames = [])
    (hin : ∀ c ∈ before, cutoff ≤ c.timestamp) :
    ∃ db', runIncremental policy live cutoff full listing db = some db' ∧
      Holds policy db' (counted policy (before ++ listing)) := by
  have hprune : pruneGitAuthorEvents db cutoff = db := by
    refine prune_holds h fun k hk => ?_
    obtain ⟨c, hc, ht⟩ := timestamp_counted hk
    rw [ht]
    exact hin c hc
  obtain ⟨db', hwrite, hholds⟩ := writeDeltas_holds h (prepared_nodup live listing)
  rw [prepared_plain live hnone] at hwrite hholds
  refine ⟨db', ?_, by rwa [counted_append]⟩
  have hremap : remapDeadPaths live (listing.map (plain policy)) ∅ = listing.map (plain policy) := rfl
  have hmoves : movesOf policy ∅ = [] := rfl
  rw [runIncremental]
  simp only [followRenames_plain hnone, hremap, hmoves, Option.bind_eq_bind]
  have hrekey : rekeyGitHistory db [] = some db := rfl
  rw [if_neg (by simp [rekeyDivergesFromFullScan, divergesFrom]), hrekey, Option.bind_some, hprune]
  exact hwrite

/-- One pass: the epoch of its HEAD, what the range holds, HEAD's tree, and what a rescan would read. -/
structure Pass where
  anchor : Int
  listing : List Commit
  live : List String
  rescan : List Commit

/-- `git log --since` -/
def Pass.logged (pass : Pass) : List Commit :=
  pass.listing.filter fun c => historyWindowCutoff pass.anchor ≤ c.timestamp

def Pass.full (policy : Policy) (pass : Pass) : Option Database := runFull policy pass.live pass.logged

def Pass.increment (policy : Policy) (db : Database) (pass : Pass) : Option Database :=
  runIncremental policy pass.live (historyWindowCutoff pass.anchor) pass.rescan pass.logged db

/-- The first pass scans in full, the others compose. -/
def runPasses (policy : Policy) (first : Pass) (rest : List Pass) : Option Database := do
  let db ← first.full policy
  rest.foldlM (Pass.increment policy) db

def listed (passes : List Pass) : List Commit := passes.flatMap Pass.listing

/-- Each pass's window holds every commit listed until then. -/
def InWindow : List Commit → List Pass → Prop
  | _, [] => True
  | seen, pass :: passes =>
    (∀ c ∈ seen ++ pass.listing, historyWindowCutoff pass.anchor ≤ c.timestamp) ∧ InWindow (seen ++ pass.listing) passes

theorem logged_of_inWindow {pass : Pass} (h : ∀ c ∈ pass.listing, historyWindowCutoff pass.anchor ≤ c.timestamp) :
    pass.logged = pass.listing :=
  List.filter_eq_self.mpr fun c hc => decide_eq_true (h c hc)

theorem full_holds (policy : Policy) {pass : Pass} (hin : InWindow [] [pass]) (hnone : ∀ c ∈ pass.listing, c.renames = []) :
    ∃ db, pass.full policy = some db ∧ Holds policy db (counted policy pass.listing) := by
  have hlogged : pass.logged = pass.listing := logged_of_inWindow fun c hc => hin.1 c (by simpa using hc)
  obtain ⟨db, hrun, hholds⟩ := runFull_holds policy pass.live pass.logged
  refine ⟨db, hrun, ?_⟩
  rwa [hlogged, prepared_plain pass.live hnone] at hholds

theorem increments_hold {passes : List Pass} : ∀ {db : Database} {before : List Commit},
    Holds policy db (counted policy before) → InWindow before passes →
    (∀ c ∈ listed passes, c.renames = []) →
    ∃ db', passes.foldlM (Pass.increment policy) db = some db' ∧
      Holds policy db' (counted policy (before ++ listed passes)) := by
  induction passes with
  | nil =>
    intro db before h _ _
    exact ⟨db, rfl, by simpa [listed] using h⟩
  | cons pass passes ih =>
    intro db before h hin hnone
    have hlogged : pass.logged = pass.listing :=
      logged_of_inWindow fun c hc => hin.1 c (List.mem_append_right _ hc)
    have hnone' : ∀ c ∈ pass.logged, c.renames = [] := by
      rw [hlogged]
      exact fun c hc => hnone c (List.mem_append_left _ hc)
    obtain ⟨db₁, hstep, hholds₁⟩ := runIncremental_plain h hnone' fun c hc => hin.1 c (List.mem_append_left _ hc)
    rw [hlogged] at hholds₁
    obtain ⟨db', hrun, hholds⟩ := ih hholds₁ hin.2 fun c hc => hnone c (List.mem_append_right _ hc)
    refine ⟨db', ?_, by simpa [listed, List.append_assoc] using hholds⟩
    rw [List.foldlM_cons, Pass.increment, hstep]
    exact hrun

/-- However the commits are listed and cut into passes, the tables hold the summary of all of them, which
is what one full pass leaves. -/
theorem passes_compose (policy : Policy) (first : Pass) (rest : List Pass) (whole : Pass)
    (hset : ((listed (first :: rest)).map Commit.sha).Nodup) (hwhole : whole.listing.Perm (listed (first :: rest)))
    (hnone : ∀ c ∈ listed (first :: rest), c.renames = []) (hin : InWindow [] (first :: rest))
    (hin' : InWindow [] [whole]) :
    ∃ db db', runPasses policy first rest = some db ∧ whole.full policy = some db' ∧ SameContent db db' ∧
      Holds policy db (counted policy (listed (first :: rest))) := by
  obtain ⟨db₁, hfirst, hholds₁⟩ := full_holds policy ⟨hin.1, trivial⟩
    fun c hc => hnone c (List.mem_append_left _ hc)
  have hin₁ : InWindow first.listing rest := by simpa using hin.2
  obtain ⟨db, hrest, hholds⟩ := increments_hold hholds₁ hin₁ fun c hc => hnone c (List.mem_append_right _ hc)
  obtain ⟨db', hfull, hholds'⟩ := full_holds policy hin' fun c hc => hnone c (hwhole.mem_iff.mp hc)
  have hperm : (counted policy whole.listing).Perm (counted policy (listed (first :: rest))) :=
    (hwhole.map _).filterMap _
  have hsha : ((counted policy whole.listing).map Keyed.sha).Nodup :=
    nodup_sha_counted ((hwhole.map Commit.sha).nodup_iff.mpr hset)
  refine ⟨db, db', ?_, hfull, hholds.same (hholds'.perm hperm hsha), hholds⟩
  rw [runPasses, hfirst]
  exact hrest

/-- Two passes over two commits, listed the other way round by a full pass. -/
theorem passes_compose_two :
    let older : Commit := ⟨"1", "ann", 7776000, ['f', 'i', 'x', ':'], ["a", "b"], []⟩
    let newer : Commit := ⟨"2", "bob", 15552000, ['a'], ["b", "a", "a"], []⟩
    let policy : Policy := ⟨fun _ => false, fun _ => false⟩
    ∃ db db', runPasses policy ⟨7776000, [older], [], []⟩ [⟨15552000, [newer], [], []⟩] = some db ∧
      Pass.full policy ⟨15552000, [newer, older], [], []⟩ = some db' ∧ SameContent db db' ∧
      db.gitFiles.lookup "a" = some ⟨1, 2, some 15552000⟩ ∧
      db.gitCoChanges.lookup ("a", "b") = some ⟨2, some 15552000, some 7776000, 6, 2⟩ := by
  intro older newer policy
  obtain ⟨db, db', hrun, hfull, hsame, hholds⟩ :=
    passes_compose policy ⟨7776000, [older], [], []⟩ [⟨15552000, [newer], [], []⟩] ⟨15552000, [newer, older], [], []⟩
      (by decide) (List.Perm.swap older newer []) (by decide)
      ⟨by decide, by decide, trivial⟩ ⟨by decide, trivial⟩
  refine ⟨db, db', hrun, hfull, hsame, ?_, ?_⟩
  · rw [hholds.files]
    decide
  · rw [hholds.pairs]
    decide

end WithoutRenames

end Git
end CodeSage
