import CodeSage.Git.Rekey

/-!
# CodeSage.Git.Linear

Indexing a linear history with renames, at one HEAD after the other. A full pass keys every commit
through all later renames at once; an incremental pass follows the renames of its range and moves the
stored rows along them. `scan` is what a full pass counts when it folds no dead path into a live one, and
`Indexes` the invariant: the store holds `scan` of the HEAD it was last indexed at.
-/

namespace CodeSage
namespace Git

open Lib

/-- A commit and the paths of its tree. -/
structure Revision where
  commit : Commit
  tree : List String

/-- The oldest commit first; HEAD number `n` has the first `n` commits behind it. -/
abbrev History := List Revision

namespace History

/-- `head_paths` -/
def treeAt (h : History) : Nat → List String
  | 0 => []
  | n + 1 => (h[n]?.map Revision.tree).getD []

/-- `commit_epoch` of HEAD -/
def epochAt (h : History) : Nat → Int
  | 0 => 0
  | n + 1 => (h[n]?.map fun r => r.commit.timestamp).getD 0

/-- The commits between two HEADs, children before parents. -/
def range (h : History) (lo hi : Nat) : List Commit := (((h.take hi).drop lo).map Revision.commit).reverse

def cutoffAt (h : History) (head : Nat) : Int := historyWindowCutoff (h.epochAt head)

/-- What `git log` prints for a pass at `head`. -/
def log (h : History) (lo head : Nat) : List Commit :=
  (h.range lo head).filter fun c => h.cutoffAt head ≤ c.timestamp

/-- The full pass at a HEAD. -/
def fullAt (policy : Policy) (h : History) (head : Nat) : Option Database :=
  runFull policy (h.treeAt head) (h.log 0 head)

/-- `git_history_index_with_options` in the mode `Auto`: the state is the HEAD of the last pass and its
tables. -/
def indexAt (policy : Policy) (h : History) (state : Option (Nat × Database)) (head : Nat) :
    Option (Option (Nat × Database)) :=
  match state with
  | none => (h.fullAt policy head).map fun db => some (head, db)
  | some (last, db) =>
    if last = head then some (some (head, pruneGitAuthorEvents db (h.cutoffAt head)))
    else if last ≤ head then
      (runIncremental policy (h.treeAt head) (h.cutoffAt head) (h.log 0 head) (h.log last head) db).map
        fun db => some (head, db)
    else (h.fullAt policy head).map fun db => some (head, db)

/-- One pass after the other, on an empty store. -/
def indexAll (policy : Policy) (h : History) (heads : List Nat) : Option (Option (Nat × Database)) :=
  heads.foldlM (h.indexAt policy) none

/-- The paths a commit renames away. -/
def sources (r : Revision) : List String := r.commit.renames.map Prod.fst

/-- What a diff against the parent says about the trees. -/
structure WellFormed (h : History) : Prop where
  shas : (h.map fun r => r.commit.sha).Nodup
  renamed : ∀ (i : Nat) r, h[i]? = some r → ∀ old new, (old, new) ∈ r.commit.renames → new ∈ r.tree
  changed : ∀ (i : Nat) r, h[i]? = some r → ∀ path ∈ r.commit.changes,
    path ∈ r.tree ∨ path ∈ h.treeAt i ∧ path ∉ sources r

instance (h : History) : Decidable h.WellFormed :=
  decidable_of_iff ((h.map fun r => r.commit.sha).Nodup ∧ ∀ i < h.length, ∀ r ∈ h[i]?,
      (∀ m ∈ r.commit.renames, m.2 ∈ r.tree) ∧
      ∀ path ∈ r.commit.changes, path ∈ r.tree ∨ path ∈ h.treeAt i ∧ path ∉ sources r) <| by
    constructor
    · rintro ⟨hshas, hall⟩
      have hrev : ∀ (i : Nat) r, h[i]? = some r → i < h.length := fun i r hr => (List.getElem?_eq_some_iff.mp hr).1
      exact ⟨hshas, fun i r hr old new hm => (hall i (hrev i r hr) r hr).1 (old, new) hm,
        fun i r hr => (hall i (hrev i r hr) r hr).2⟩
    · intro hwf
      exact ⟨hwf.shas, fun i _ r hr => ⟨fun m hm => hwf.renamed i r hr m.1 m.2 hm, hwf.changed i r hr⟩⟩

/-- Commit number `i` deletes the file at `path`. -/
def Deletes (h : History) (i : Nat) (path : String) : Prop :=
  ∃ r, h[i]? = some r ∧ path ∈ h.treeAt i ∧ path ∉ r.tree ∧ path ∉ sources r

instance (h : History) (i : Nat) (path : String) : Decidable (h.Deletes i path) :=
  decidable_of_iff (∃ r ∈ h[i]?, path ∈ h.treeAt i ∧ path ∉ r.tree ∧ path ∉ sources r) Iff.rfl

/-- No file is created at a renamed-away path and deleted again. -/
def KeepsReused (h : History) : Prop :=
  ∀ (i j : Nat) r path, j < i → h[j]? = some r → path ∈ sources r → ¬h.Deletes i path

instance (h : History) : Decidable h.KeepsReused :=
  decidable_of_iff (∀ j < h.length, ∀ r ∈ h[j]?, ∀ path ∈ sources r, ∀ i < h.length, j < i → ¬h.Deletes i path) <| by
    constructor
    · intro hall i j r path hji hr hpath hdel
      have hi : i < h.length := by
        obtain ⟨r', hr', -⟩ := hdel
        exact (List.getElem?_eq_some_iff.mp hr').1
      exact hall j (List.getElem?_eq_some_iff.mp hr).1 r hr path hpath i hi hji hdel
    · exact fun hreused j _ r hr path hpath i _ hji => hreused i j r path hji hr hpath

/-- No rename hides an indexed path. -/
def KeepsIndexed (policy : Policy) (h : History) : Prop :=
  ∀ r ∈ h, ∀ old new, (old, new) ∈ r.commit.renames → policy.excluded old = false → policy.excluded new = false

/-- The commits behind a HEAD are inside its window. -/
def WindowAt (h : History) (head : Nat) : Prop := ∀ c ∈ h.range 0 head, h.cutoffAt head ≤ c.timestamp

instance (h : History) (head : Nat) : Decidable (h.WindowAt head) := List.decidableBAll _ _

end History

section Successors

/-- Where one commit's renames take a path. -/
def renamedTo (renames : List (String × String)) (path : String) : String :=
  ((renames.reverse.find? fun r => r.1 = path).map Prod.snd).getD path

theorem current_move (successor : Successor) (m : String × String) (path : String) :
    (successor.move m).current path = if path = m.1 then m.2 else successor.current path := by
  unfold Successor.move
  split
  · rename_i heq
    rw [Successor.current, lookup_erase]
    split
    · rename_i hpath
      rw [Option.getD_none, hpath, heq]
    · rfl
  · rw [Successor.current, lookup_insert]
    split <;> rfl

theorem current_foldl_move : ∀ (moves : List (String × String)) (successor : Successor) (path : String),
    (moves.foldl Successor.move successor).current path =
      ((moves.reverse.find? fun m => m.1 = path).map Prod.snd).getD (successor.current path) := by
  intro moves
  induction moves with
  | nil => exact fun successor path => rfl
  | cons m moves ih =>
    intro successor path
    rw [List.foldl_cons, ih, List.reverse_cons, List.find?_append, current_move]
    cases moves.reverse.find? fun m => m.1 = path with
    | some m' => rfl
    | none =>
      by_cases hpath : path = m.1
      · simp [hpath]
      · simp [hpath, Ne.symm hpath]

theorem current_follow (successor : Successor) (renames : List (String × String)) (path : String) :
    (successor.follow renames).current path = successor.current (renamedTo renames path) := by
  rw [Successor.follow, current_foldl_move, ← List.map_reverse, List.find?_map, renamedTo]
  change (Option.map Prod.snd (Option.map _ (renames.reverse.find? fun r => decide (r.1 = path)))).getD _ = _
  cases renames.reverse.find? fun r => r.1 = path <;> rfl

theorem renamedTo_of_notMem {renames : List (String × String)} {path : String} (h : path ∉ renames.map Prod.fst) :
    renamedTo renames path = path := by
  have hnone : renames.reverse.find? (fun r => r.1 = path) = none := by
    rw [List.find?_eq_none]
    intro r hr heq
    exact h (List.mem_map.mpr ⟨r, List.mem_reverse.mp hr, of_decide_eq_true heq⟩)
  rw [renamedTo, hnone]
  rfl

theorem renamedTo_of_mem {renames : List (String × String)} {path : String} (h : path ∈ renames.map Prod.fst) :
    (path, renamedTo renames path) ∈ renames := by
  cases hfind : renames.reverse.find? fun r => r.1 = path with
  | none =>
    obtain ⟨r, hr, rfl⟩ := List.mem_map.mp h
    have := List.find?_eq_none.mp hfind r (List.mem_reverse.mpr hr)
    simp at this
  | some r =>
    have hkey : r.1 = path := by simpa using List.find?_some hfind
    have hmem := List.mem_reverse.mp (List.mem_of_find?_eq_some hfind)
    rw [renamedTo, hfind, Option.map_some, Option.getD_some, ← hkey]
    exact hmem

theorem lookup_foldl_move_of_notMem : ∀ {moves : List (String × String)} {successor : Successor} {path : String},
    path ∉ moves.map Prod.fst → (moves.foldl Successor.move successor).lookup path = successor.lookup path := by
  intro moves
  induction moves with
  | nil => exact fun _ => rfl
  | cons m moves ih =>
    intro successor path h
    rw [List.map_cons, List.mem_cons, not_or] at h
    rw [List.foldl_cons, ih h.2, Successor.move]
    split
    · rw [lookup_erase, if_neg h.1]
    · rw [lookup_insert, if_neg h.1]

theorem lookup_follow_of_notMem {successor : Successor} {renames : List (String × String)} {path : String}
    (h : path ∉ renames.map Prod.fst) : (successor.follow renames).lookup path = successor.lookup path := by
  refine lookup_foldl_move_of_notMem ?_
  rwa [List.map_map]

end Successors

section Followed

variable {policy : Policy}

theorem followRenames_append : ∀ (xs ys : List Commit) (successor : Successor),
    followRenames policy (xs ++ ys) successor =
      ((followRenames policy xs successor).1 ++ (followRenames policy ys (followRenames policy xs successor).2).1,
        (followRenames policy ys (followRenames policy xs successor).2).2) := by
  intro xs
  induction xs with
  | nil => exact fun ys successor => rfl
  | cons c xs ih =>
    intro ys successor
    rw [List.cons_append, followRenames, ih, followRenames]
    rfl

theorem mergeSamePath_concat (xs : List String) (x : String) :
    mergeSamePath (xs ++ [x]) = if x ∈ mergeSamePath xs then mergeSamePath xs else mergeSamePath xs ++ [x] := by
  rw [mergeSamePath, List.foldl_append]
  rfl

/-- Merging before the paths move makes no difference. -/
theorem mergeSamePath_map (S : String → String) (xs : List String) :
    mergeSamePath ((mergeSamePath xs).map S) = mergeSamePath (xs.map S) := by
  induction xs using List.reverseRecOn with
  | nil => rfl
  | append_singleton xs x ih =>
    rw [mergeSamePath_concat]
    split
    · rename_i hx
      have hmem : S x ∈ mergeSamePath (xs.map S) :=
        mem_mergeSamePath.mpr (List.mem_map_of_mem (mem_mergeSamePath.mp hx))
      rw [ih, List.map_append, List.map_singleton, mergeSamePath_concat, if_pos hmem]
    · rw [List.map_append, List.map_singleton, mergeSamePath_concat, ih, List.map_append, List.map_singleton,
        mergeSamePath_concat]

theorem mergeSamePath_of_nodup {xs : List String} (h : xs.Nodup) : mergeSamePath xs = xs := by
  induction xs using List.reverseRecOn with
  | nil => rfl
  | append_singleton xs x ih =>
    obtain ⟨hxs, -, hdisj⟩ := List.nodup_append.mp h
    have hx : x ∉ xs := fun hmem => hdisj x hmem x (List.mem_singleton_self x) rfl
    rw [mergeSamePath_concat, ih hxs, if_neg hx]

/-- A commit whose paths have moved. -/
def Commit.rekey (S : String → String) (c : Commit) : Commit := { c with changes := mergeSamePath (c.changes.map S) }

/-- Following further renames is moving the followed paths. -/
theorem followRenames_rekey {S : String → String} : ∀ {ys : List Commit} {t t' : Successor},
    (∀ path, t'.current path = S (t.current path)) →
    (followRenames policy ys t').1 = (followRenames policy ys t).1.map (Commit.rekey S) := by
  intro ys
  induction ys with
  | nil => exact fun _ => rfl
  | cons c ys ih =>
    intro t t' h
    have hfollow : ∀ path, (t'.follow c.renames).current path = S ((t.follow c.renames).current path) := by
      intro path
      rw [current_follow, current_follow, h]
    have hhead : mergeSamePath ((c.changes.filter fun path => !policy.excluded path).map t'.current) =
        mergeSamePath ((mergeSamePath ((c.changes.filter fun path => !policy.excluded path).map t.current)).map S) := by
      rw [mergeSamePath_map, List.map_map]
      exact congrArg _ (List.map_congr_left fun path _ => h path)
    rw [followRenames, followRenames, ih hfollow, List.map_cons, hhead]
    rfl

/-- The renames keep indexed paths indexed. -/
def KeepsPaths (policy : Policy) (S : String → String) : Prop :=
  ∀ path, policy.excluded path = false → policy.excluded (S path) = false

theorem keepsPaths_follow {successor : Successor} (h : KeepsPaths policy successor.current)
    {renames : List (String × String)}
    (hrenames : ∀ old new, (old, new) ∈ renames → policy.excluded old = false → policy.excluded new = false) :
    KeepsPaths policy (successor.follow renames).current := by
  intro path hpath
  rw [current_follow]
  refine h _ ?_
  by_cases hmem : path ∈ renames.map Prod.fst
  · exact hrenames _ _ (renamedTo_of_mem hmem) hpath
  · rwa [renamedTo_of_notMem hmem]

theorem followRenames_indexed : ∀ {listing : List Commit} {successor : Successor},
    (∀ c ∈ listing, ∀ old new, (old, new) ∈ c.renames → policy.excluded old = false → policy.excluded new = false) →
    KeepsPaths policy successor.current →
    KeepsPaths policy (followRenames policy listing successor).2.current ∧
      ∀ c ∈ (followRenames policy listing successor).1, ∀ path ∈ c.changes, policy.excluded path = false := by
  intro listing
  induction listing with
  | nil =>
    intro successor _ h
    exact ⟨h, fun c hc => nomatch hc⟩
  | cons c listing ih =>
    intro successor hrenames h
    obtain ⟨hkeep, hpaths⟩ := ih (fun c hc => hrenames c (List.mem_cons_of_mem _ hc))
      (keepsPaths_follow h (hrenames c List.mem_cons_self))
    refine ⟨hkeep, fun c' hc' path hpath => ?_⟩
    rcases List.mem_cons.mp hc' with rfl | hc'
    · obtain ⟨x, hx, rfl⟩ := List.mem_map.mp (mem_mergeSamePath.mp hpath)
      exact h x (by simpa using (List.mem_filter.mp hx).2)
    · exact hpaths c' hc' path hpath

theorem keepsPaths_empty : KeepsPaths policy (∅ : Successor).current := fun _ h => h

/-- Commits with indexed paths only count for all of them. -/
theorem keyedOf_indexed {c : Commit} (h : ∀ path ∈ c.changes, policy.excluded path = false) :
    keyedOf policy c = if softSkip c.subject = true ∨ c.changes = [] then none
      else some ⟨c.sha, c.author, c.timestamp, isFixCommit c.subject, c.changes⟩ := by
  have hfilter : c.changes.filter (fun path => !policy.excluded path) = c.changes :=
    List.filter_eq_self.mpr fun path hpath => by simp [h path hpath]
  rw [keyedOf, filterKept, hfilter]
  by_cases hskip : softSkip c.subject = true
  · simp [hskip]
  · by_cases hnil : c.changes = [] <;> simp [hskip, hnil]

/-- Moving the paths of commits moves the paths they count for. -/
theorem keysOf_rekey {S : String → String} {commits : List Commit}
    (hindexed : ∀ c ∈ commits, ∀ path ∈ c.changes, policy.excluded path = false)
    (hnodup : ∀ c ∈ commits, c.changes.Nodup) (hkeep : KeepsPaths policy S)
    (hS : Apart S (keysOf policy commits)) :
    keysOf policy (commits.map (Commit.rekey S)) = (keysOf policy commits).map (Keyed.rekey S) := by
  rw [keysOf, List.filterMap_map, keysOf, List.map_filterMap]
  refine List.filterMap_congr fun c hc => ?_
  have hc' : ∀ path ∈ (c.rekey S).changes, policy.excluded path = false := by
    intro path hpath
    obtain ⟨x, hx, rfl⟩ := List.mem_map.mp (mem_mergeSamePath.mp hpath)
    exact hkeep x (hindexed c hc x hx)
  rw [Function.comp_apply, keyedOf_indexed hc', keyedOf_indexed (hindexed c hc)]
  have hnil : (c.rekey S).changes = [] ↔ c.changes = [] := by
    simp only [Commit.rekey, List.eq_nil_iff_forall_not_mem, mem_mergeSamePath, List.mem_map]
    constructor
    · exact fun h path hpath => h (S path) ⟨path, hpath, rfl⟩
    · rintro h path ⟨x, hx, -⟩
      exact h x hx
  have hcond : softSkip (c.rekey S).subject = true ∨ (c.rekey S).changes = [] ↔
      softSkip c.subject = true ∨ c.changes = [] := or_congr Iff.rfl hnil
  by_cases hcounts : softSkip c.subject = true ∨ c.changes = []
  · rw [if_pos hcounts, if_pos (hcond.mpr hcounts)]
    rfl
  · rw [if_neg hcounts, if_neg (mt hcond.mp hcounts)]
    -- the commit counts, so its paths are recorded and the moves keep them apart
    have hmem : (⟨c.sha, c.author, c.timestamp, isFixCommit c.subject, c.changes⟩ : Keyed) ∈ keysOf policy commits := by
      refine List.mem_filterMap.mpr ⟨c, hc, ?_⟩
      rw [keyedOf_indexed (hindexed c hc), if_neg hcounts]
    have hmap : (c.changes.map S).Nodup :=
      (hnodup c hc).map_on fun p hp q hq heq => hS p q ⟨_, hmem, hp⟩ ⟨_, hmem, hq⟩ heq
    rw [Option.map_some, Keyed.rekey, Commit.rekey, mergeSamePath_of_nodup hmap]

end Followed

section Ranges

open History

variable {h : History}

theorem treeAt_succ {n : Nat} {r : Revision} (hr : h[n]? = some r) : h.treeAt (n + 1) = r.tree := by
  rw [treeAt, hr]
  rfl

theorem range_self (n : Nat) : h.range n n = [] := by
  rw [range, List.drop_eq_nil_of_le (List.length_take_le n h)]
  rfl

theorem range_succ {lo hi : Nat} (hlt : lo < hi) {r : Revision} (hr : h[lo]? = some r) :
    h.range lo hi = h.range (lo + 1) hi ++ [r.commit] := by
  have hget : (h.take hi)[lo]? = some r := by rw [List.getElem?_take, if_pos hlt, hr]
  rw [range, List.drop_eq_getElem?_toList_append, hget, range]
  simp

theorem range_split {lo hi : Nat} (hle : lo ≤ hi) : h.range 0 hi = h.range lo hi ++ h.range 0 lo := by
  have htake : (h.take hi).take lo = h.take lo := by rw [List.take_take, min_eq_left hle]
  have hsplit : h.take hi = h.take lo ++ (h.take hi).drop lo := by rw [← htake, List.take_append_drop]
  rw [range, List.drop_zero, hsplit, List.map_append, List.reverse_append, range, range, List.drop_zero]

theorem mem_range {lo hi : Nat} {c : Commit} (hc : c ∈ h.range lo hi) : ∃ r ∈ h, r.commit = c := by
  obtain ⟨r, hr, heq⟩ := List.mem_map.mp (List.mem_reverse.mp hc)
  exact ⟨r, List.mem_of_mem_take (List.mem_of_mem_drop hr), heq⟩

theorem log_eq_range {lo head : Nat} (hle : lo ≤ head) (hwindow : h.WindowAt head) :
    h.log lo head = h.range lo head := by
  refine List.filter_eq_self.mpr fun c hc => decide_eq_true (hwindow c ?_)
  rw [range_split hle]
  exact List.mem_append_left _ hc

theorem nodup_range (hwf : h.WellFormed) (lo hi : Nat) : ((h.range lo hi).map Commit.sha).Nodup := by
  rw [range, List.map_reverse, List.nodup_reverse, List.map_map]
  exact hwf.shas.sublist (((List.drop_sublist lo _).trans (List.take_sublist hi h)).map _)

end Ranges

section Dead

open History

variable {policy : Policy} {h : History}

/-- A path that a change may carry at HEAD `n`: a file of the tree, or one that was deleted and whose name no
later rename takes away. -/
def Carried (h : History) (n : Nat) (path : String) : Prop :=
  path ∈ h.treeAt n ∨
    ∃ i < n, h.Deletes i path ∧ ∀ (j : Nat) r, i < j → j < n → h[j]? = some r → path ∉ sources r

theorem carried_of_deletes {i : Nat} {path : String} (hdel : h.Deletes i path) : Carried h (i + 1) path :=
  .inr ⟨i, Nat.lt_succ_self i, hdel, fun j r hij hj => by omega⟩

theorem carried_change (hwf : h.WellFormed) {i : Nat} {r : Revision} (hr : h[i]? = some r) {path : String}
    (hpath : path ∈ r.commit.changes) : Carried h (i + 1) path := by
  by_cases htree : path ∈ r.tree
  · exact .inl (by rwa [treeAt_succ hr])
  · obtain ⟨hbefore, hsource⟩ := (hwf.changed i r hr path hpath).resolve_left htree
    exact carried_of_deletes ⟨r, hr, hbefore, htree, hsource⟩

/-- A commit's renames take a carried path to a carried path. -/
theorem carried_renamedTo (hwf : h.WellFormed) {n : Nat} {r : Revision} (hr : h[n]? = some r) {path : String}
    (hpath : Carried h n path) : Carried h (n + 1) (renamedTo r.commit.renames path) := by
  by_cases hsource : path ∈ sources r
  · refine .inl ?_
    rw [treeAt_succ hr]
    exact hwf.renamed n r hr _ _ (renamedTo_of_mem hsource)
  · rw [renamedTo_of_notMem hsource]
    rcases hpath with htree | ⟨i, hi, hdel, hfree⟩
    · by_cases hafter : path ∈ r.tree
      · exact .inl (by rwa [treeAt_succ hr])
      · exact carried_of_deletes ⟨r, hr, htree, hafter, hsource⟩
    · refine .inr ⟨i, Nat.lt_succ_of_lt hi, hdel, fun j r' hij hj hr' => ?_⟩
      rcases Nat.lt_succ_iff_lt_or_eq.mp hj with hj | rfl
      · exact hfree j r' hij hj hr'
      · rw [hr] at hr'
        cases hr'
        exact hsource

/-- The successors that a pass over `lo..hi` ends with. -/
def successorsOf (policy : Policy) (h : History) (lo hi : Nat) : Successor := (followRenames policy (h.range lo hi) ∅).2

theorem successorsOf_succ {lo hi : Nat} (hlt : lo < hi) {r : Revision} (hr : h[lo]? = some r) :
    successorsOf policy h lo hi = (successorsOf policy h (lo + 1) hi).follow r.commit.renames := by
  rw [successorsOf, range_succ hlt hr, followRenames_append]
  rfl

theorem exists_revision {lo hi : Nat} (hlt : lo < hi) (hlen : hi ≤ h.length) : ∃ r, h[lo]? = some r :=
  ⟨_, List.getElem?_eq_getElem (hlt.trans_le hlen)⟩

theorem carried_current (hwf : h.WellFormed) {hi : Nat} (hlen : hi ≤ h.length) : ∀ (k lo : Nat), lo + k = hi →
    ∀ path, Carried h lo path → Carried h hi ((successorsOf policy h lo hi).current path) := by
  intro k
  induction k with
  | zero =>
    intro lo heq path hpath
    rw [Nat.add_zero] at heq
    subst heq
    rw [successorsOf, range_self]
    exact hpath
  | succ k ih =>
    intro lo heq path hpath
    have hlt : lo < hi := by omega
    obtain ⟨r, hr⟩ := exists_revision hlt hlen
    rw [successorsOf_succ hlt hr, current_follow]
    exact ih (lo + 1) (by omega) _ (carried_renamedTo hwf hr hpath)

/-- Every path that a pass counts for is carried. -/
theorem carried_followed (hwf : h.WellFormed) {hi : Nat} (hlen : hi ≤ h.length) : ∀ (k lo : Nat), lo + k = hi →
    ∀ c ∈ (followRenames policy (h.range lo hi) ∅).1, ∀ path ∈ c.changes, Carried h hi path := by
  intro k
  induction k with
  | zero =>
    intro lo heq c hc
    rw [Nat.add_zero] at heq
    subst heq
    rw [range_self] at hc
    cases hc
  | succ k ih =>
    intro lo heq c hc path hpath
    have hlt : lo < hi := by omega
    obtain ⟨r, hr⟩ := exists_revision hlt hlen
    rw [range_succ hlt hr, followRenames_append] at hc
    rcases List.mem_append.mp hc with hc | hc
    · exact ih (lo + 1) (by omega) c hc path hpath
    · obtain rfl := List.mem_singleton.mp hc
      obtain ⟨x, hx, rfl⟩ := List.mem_map.mp (mem_mergeSamePath.mp hpath)
      exact carried_current hwf hlen k (lo + 1) (by omega) x (carried_change hwf hr (List.mem_filter.mp hx).1)

theorem lookup_successorsOf {hi : Nat} (hlen : hi ≤ h.length) {path : String}
    (hfree : ∀ (j : Nat) r, j < hi → h[j]? = some r → path ∉ sources r) : ∀ (k lo : Nat), lo + k = hi →
    (successorsOf policy h lo hi).lookup path = none := by
  intro k
  induction k with
  | zero =>
    intro lo heq
    rw [Nat.add_zero] at heq
    subst heq
    rw [successorsOf, range_self]
    rfl
  | succ k ih =>
    intro lo heq
    have hlt : lo < hi := by omega
    obtain ⟨r, hr⟩ := exists_revision hlt hlen
    rw [successorsOf_succ hlt hr, lookup_follow_of_notMem (hfree lo r hlt hr)]
    exact ih (lo + 1) (by omega)

/-- A carried path outside the tree was never renamed away. -/
theorem carried_dead (hreused : h.KeepsReused) {hi : Nat} {path : String} (hpath : Carried h hi path)
    (hdead : path ∉ h.treeAt hi) : ∀ (j : Nat) r, j < hi → h[j]? = some r → path ∉ sources r := by
  obtain ⟨i, hi', hdel, hfree⟩ := hpath.resolve_left hdead
  intro j r hj hr hsource
  rcases Nat.lt_trichotomy j i with hji | rfl | hij
  · exact hreused i j r path hji hr hsource hdel
  · obtain ⟨r', hr', -, -, hnot⟩ := hdel
    rw [hr] at hr'
    cases hr'
    exact hnot hsource
  · exact hfree j r hij hj hr hsource

theorem remapPath_of_lookup {live : List String} {successor : Successor} {path : String}
    (hdead : path ∉ live → successor.lookup path = none) : remapPath live successor path = none := by
  unfold remapPath
  split
  · rfl
  · rename_i hnot
    have hchase : ∀ n, chase live successor n path = path := by
      intro n
      cases n with
      | zero => rfl
      | succ n => rw [chase, hdead hnot]
    rw [hchase, if_neg hnot]

theorem remapDeadPaths_of_none {live : List String} {commits : List Commit} {successor : Successor}
    (hnone : ∀ c ∈ commits, ∀ path ∈ c.changes, remapPath live successor path = none) :
    remapDeadPaths live commits successor = commits := by
  unfold remapDeadPaths
  split
  · rfl
  · conv_rhs => rw [← List.map_id commits]
    refine List.map_congr_left fun c hc => if_neg ?_
    rw [List.any_eq_true]
    rintro ⟨path, hpath, hsome⟩
    rw [hnone c hc path hpath] at hsome
    cases hsome

/-- No dead path is folded into a live one. -/
theorem prepared_range (hwf : h.WellFormed) (hreused : h.KeepsReused) {lo hi : Nat} (hle : lo ≤ hi)
    (hlen : hi ≤ h.length) :
    prepared policy (h.treeAt hi) (h.range lo hi) = (followRenames policy (h.range lo hi) ∅).1 := by
  refine remapDeadPaths_of_none fun c hc path hpath => remapPath_of_lookup fun hdead => ?_
  have hcarried := carried_followed hwf hlen (hi - lo) lo (by omega) c hc path hpath
  exact lookup_successorsOf hlen (carried_dead hreused hcarried hdead) (hi - lo) lo (by omega)

end Dead

section Runs

open History

variable {policy : Policy} {h : History}

/-- What a full pass counts. -/
def scan (policy : Policy) (h : History) (n : Nat) : List Keyed := keysOf policy (followRenames policy (h.range 0 n) ∅).1

theorem sha_followRenames : ∀ (listing : List Commit) (successor : Successor),
    (followRenames policy listing successor).1.map Commit.sha = listing.map Commit.sha := by
  intro listing
  induction listing with
  | nil => exact fun _ => rfl
  | cons c listing ih =>
    intro successor
    rw [followRenames, List.map_cons, ih]
    rfl

theorem timestamp_followRenames : ∀ (listing : List Commit) (successor : Successor),
    (followRenames policy listing successor).1.map Commit.timestamp = listing.map Commit.timestamp := by
  intro listing
  induction listing with
  | nil => exact fun _ => rfl
  | cons c listing ih =>
    intro successor
    rw [followRenames, List.map_cons, ih]
    rfl

theorem nodup_sha_scan (hwf : h.WellFormed) (n : Nat) : ((scan policy h n).map Keyed.sha).Nodup := by
  refine nodup_sha_keysOf ?_
  rw [sha_followRenames]
  exact nodup_range hwf 0 n

theorem scan_in_window {lo hi : Nat} (hle : lo ≤ hi) (hwindow : h.WindowAt hi) :
    ∀ k ∈ scan policy h lo, h.cutoffAt hi ≤ k.timestamp := by
  intro k hk
  obtain ⟨c, hc, hkey⟩ := List.mem_filterMap.mp hk
  have hmem := List.mem_map_of_mem (f := Commit.timestamp) hc
  rw [timestamp_followRenames] at hmem
  obtain ⟨c', hc', heq⟩ := List.mem_map.mp hmem
  rw [timestamp_of_keyedOf hkey, ← heq]
  refine hwindow c' ?_
  rw [range_split hle]
  exact List.mem_append_right _ hc'

theorem renames_range (hkeeps : h.KeepsIndexed policy) (lo hi : Nat) : ∀ c ∈ h.range lo hi, ∀ old new,
    (old, new) ∈ c.renames → policy.excluded old = false → policy.excluded new = false := by
  intro c hc
  obtain ⟨r, hr, rfl⟩ := mem_range hc
  exact hkeeps r hr

theorem indexed_scan (hkeeps : h.KeepsIndexed policy) (lo hi : Nat) :
    Indexed policy (successorsOf policy h lo hi) (scan policy h lo) := by
  rintro p ⟨k, hk, hp⟩
  obtain ⟨c, hc, hkey⟩ := List.mem_filterMap.mp hk
  obtain ⟨-, hpaths⟩ := followRenames_indexed (renames_range hkeeps 0 lo) keepsPaths_empty
  obtain ⟨hkeep, -⟩ := followRenames_indexed (renames_range hkeeps lo hi) keepsPaths_empty
  rw [keyedOf_indexed (hpaths c hc)] at hkey
  split at hkey
  · cases hkey
  · cases hkey
    exact ⟨hpaths c hc p hp, hkeep p (hpaths c hc p hp)⟩

/-- The scan at the later HEAD is the new commits and the earlier scan under its new paths. -/
theorem scan_split (hkeeps : h.KeepsIndexed policy) {lo hi : Nat} (hle : lo ≤ hi)
    (hapart : Apart (successorsOf policy h lo hi).current (scan policy h lo)) :
    scan policy h hi = keysOf policy (followRenames policy (h.range lo hi) ∅).1 ++
      (scan policy h lo).map (Keyed.rekey (successorsOf policy h lo hi).current) := by
  obtain ⟨-, hpaths⟩ := followRenames_indexed (renames_range hkeeps 0 lo) keepsPaths_empty
  obtain ⟨hkeep, -⟩ := followRenames_indexed (renames_range hkeeps lo hi) keepsPaths_empty
  have hrekey : (followRenames policy (h.range 0 lo) (successorsOf policy h lo hi)).1 =
      (followRenames policy (h.range 0 lo) ∅).1.map (Commit.rekey (successorsOf policy h lo hi).current) :=
    followRenames_rekey fun path => rfl
  rw [scan, range_split hle, followRenames_append, keysOf, List.filterMap_append]
  refine congrArg _ ?_
  rw [← keysOf, ← successorsOf, hrekey]
  exact keysOf_rekey hpaths (followRenames_nodup _ _) hkeep hapart

theorem fullAt_holds (policy : Policy) (hwf : h.WellFormed) (hreused : h.KeepsReused) {head : Nat}
    (hlen : head ≤ h.length) (hwindow : h.WindowAt head) :
    ∃ db, h.fullAt policy head = some db ∧ Holds policy db (scan policy h head) := by
  rw [fullAt, log_eq_range (Nat.zero_le head) hwindow]
  obtain ⟨db, hrun, hholds⟩ := runFull_holds policy (h.treeAt head) (h.range 0 head)
  rw [prepared_range hwf hreused (Nat.zero_le head) hlen] at hholds
  exact ⟨db, hrun, hholds⟩

/-- An incremental pass takes the store from one scan to the next. -/
theorem runIncremental_holds (hwf : h.WellFormed) (hreused : h.KeepsReused) (hkeeps : h.KeepsIndexed policy)
    {last head : Nat} (hle : last ≤ head) (hlen : head ≤ h.length) (hwindow : h.WindowAt head) {db : Database}
    (hdb : Holds policy db (scan policy h last)) :
    ∃ db', runIncremental policy (h.treeAt head) (h.cutoffAt head) (h.log 0 head) (h.log last head) db = some db' ∧
      Holds policy db' (scan policy h head) := by
  have hprepared : remapDeadPaths (h.treeAt head) (followRenames policy (h.range last head) ∅).1
      (followRenames policy (h.range last head) ∅).2 = (followRenames policy (h.range last head) ∅).1 :=
    prepared_range hwf hreused hle hlen
  rw [log_eq_range hle hwindow, runIncremental]
  simp only [hprepared]
  rw [← successorsOf]
  by_cases hdiverges : rekeyDivergesFromFullScan policy db (movesOf policy (successorsOf policy h last head)) = true
  · rw [if_pos hdiverges]
    exact fullAt_holds policy hwf hreused hlen hwindow
  · rw [if_neg hdiverges]
    have hno := Bool.eq_false_iff.mpr hdiverges
    have hindexed := indexed_scan hkeeps last head
    have hapart := apart_movesOf hdb hindexed hno
    have hdistinct : Distinct (scan policy h last) := keysOf_distinct (followRenames_nodup _ _)
    obtain ⟨db₁, hrekey, hholds₁⟩ := rekey_holds hdb nodup_movesOf (moved_movesOf hindexed) hdistinct
      (nodup_sha_scan hwf last) hapart (testLike_movesOf hindexed hno)
    have hprune : pruneGitAuthorEvents db₁ (h.cutoffAt head) = db₁ := by
      refine prune_holds hholds₁ fun k hk => ?_
      obtain ⟨k', hk', rfl⟩ := List.mem_map.mp hk
      exact scan_in_window hle hwindow k' hk'
    obtain ⟨db₂, hwrite, hholds₂⟩ := writeDeltas_holds hholds₁ (followRenames_nodup (h.range last head) ∅)
    refine ⟨db₂, ?_, ?_⟩
    · rw [hrekey]
      simp only [Option.bind_eq_bind, Option.bind_some, hprune]
      exact hwrite
    · -- the new commits stand before the stored ones in the scan
      have hperm : ((scan policy h last).map (Keyed.rekey (successorsOf policy h last head).current) ++
          keysOf policy (followRenames policy (h.range last head) ∅).1).Perm (scan policy h head) := by
        rw [scan_split hkeeps hle hapart]
        exact List.perm_append_comm
      refine hholds₂.perm hperm ?_
      rw [(hperm.map Keyed.sha).nodup_iff]
      exact nodup_sha_scan hwf head

/-- The store holds the scan of the HEAD it was last indexed at. -/
def Indexes (policy : Policy) (h : History) (head : Nat) (state : Option (Nat × Database)) : Prop :=
  ∃ db, state = some (head, db) ∧ Holds policy db (scan policy h head)

theorem indexAt_first (policy : Policy) (hwf : h.WellFormed) (hreused : h.KeepsReused) {head : Nat}
    (hlen : head ≤ h.length) (hwindow : h.WindowAt head) :
    ∃ state, h.indexAt policy none head = some state ∧ Indexes policy h head state := by
  obtain ⟨db, hfull, hholds⟩ := fullAt_holds policy hwf hreused hlen hwindow
  refine ⟨some (head, db), ?_, db, rfl, hholds⟩
  rw [indexAt, hfull]
  rfl

theorem indexAt_next (hwf : h.WellFormed) (hreused : h.KeepsReused) (hkeeps : h.KeepsIndexed policy)
    {last head : Nat} (hle : last ≤ head) (hlen : head ≤ h.length) (hwindow : h.WindowAt head)
    {state : Option (Nat × Database)} (hstate : Indexes policy h last state) :
    ∃ state', h.indexAt policy state head = some state' ∧ Indexes policy h head state' := by
  obtain ⟨db, rfl, hholds⟩ := hstate
  by_cases heq : last = head
  · subst heq
    refine ⟨some (last, db), ?_, db, rfl, hholds⟩
    rw [indexAt, if_pos rfl, prune_holds hholds (scan_in_window (Nat.le_refl last) hwindow)]
  · obtain ⟨db', hrun, hholds'⟩ := runIncremental_holds hwf hreused hkeeps hle hlen hwindow hholds
    refine ⟨some (head, db'), ?_, db', rfl, hholds'⟩
    rw [indexAt, if_neg heq, if_pos hle, hrun]
    rfl

theorem indexAll_next (hwf : h.WellFormed) (hreused : h.KeepsReused) (hkeeps : h.KeepsIndexed policy) :
    ∀ {heads : List Nat} {first : Nat} {state : Option (Nat × Database)}, Indexes policy h first state →
    (first :: heads).Pairwise (· ≤ ·) → (∀ head ∈ heads, head ≤ h.length ∧ h.WindowAt head) →
    ∃ state', heads.foldlM (h.indexAt policy) state = some state' ∧
      Indexes policy h ((first :: heads).getLast (List.cons_ne_nil first heads)) state' := by
  intro heads
  induction heads with
  | nil => exact fun hstate _ _ => ⟨_, rfl, hstate⟩
  | cons head heads ih =>
    intro first state hstate hsorted hheads
    obtain ⟨hlen, hwindow⟩ := hheads head List.mem_cons_self
    obtain ⟨hfirst, hsorted⟩ := List.pairwise_cons.mp hsorted
    obtain ⟨state₁, hstep, hstate₁⟩ := indexAt_next hwf hreused hkeeps (hfirst head List.mem_cons_self) hlen hwindow hstate
    obtain ⟨state', hrun, hstate'⟩ := ih hstate₁ hsorted fun n hn => hheads n (List.mem_cons_of_mem _ hn)
    refine ⟨state', ?_, ?_⟩
    · rw [List.foldlM_cons, hstep]
      exact hrun
    · rwa [List.getLast_cons (List.cons_ne_nil head heads)]

/-- Incremental passes at increasing HEADs leave what one full pass at the last of them does. -/
theorem incremental_passes_eq_rescan (policy : Policy) (h : History) (hwf : h.WellFormed) (hreused : h.KeepsReused)
    (hkeeps : h.KeepsIndexed policy) (heads : List Nat) (last : Nat) (hsorted : (heads ++ [last]).Pairwise (· ≤ ·))
    (hlen : last ≤ h.length) (hwindow : ∀ head ∈ heads ++ [last], h.WindowAt head) :
    ∃ db db', h.indexAll policy (heads ++ [last]) = some (some (last, db)) ∧ h.fullAt policy last = some db' ∧
      SameContent db db' := by
  have hheads : ∀ head ∈ heads ++ [last], head ≤ h.length ∧ h.WindowAt head := by
    intro head hhead
    refine ⟨?_, hwindow head hhead⟩
    rcases List.mem_append.mp hhead with hmem | hmem
    · exact ((List.pairwise_append.mp hsorted).2.2 head hmem last List.mem_cons_self).trans hlen
    · exact (List.mem_singleton.mp hmem).trans_le hlen
  obtain ⟨db', hfull, hholds'⟩ := fullAt_holds policy hwf hreused hlen (hwindow last (by simp))
  obtain ⟨first, rest, hcons⟩ := List.exists_cons_of_ne_nil (List.append_ne_nil_of_right_ne_nil heads (List.cons_ne_nil last []))
  have hlast : (first :: rest).getLast (List.cons_ne_nil first rest) = last := by
    simp only [← hcons, List.getLast_append_singleton]
  rw [hcons] at hsorted hheads ⊢
  obtain ⟨hlen₁, hwindow₁⟩ := hheads first List.mem_cons_self
  obtain ⟨state, hfirst, hstate⟩ := indexAt_first policy hwf hreused hlen₁ hwindow₁
  obtain ⟨state', hrun, db, rfl, hholds⟩ := indexAll_next hwf hreused hkeeps hstate hsorted
    fun head hhead => hheads head (List.mem_cons_of_mem _ hhead)
  rw [hlast] at hrun hholds
  refine ⟨db, db', ?_, hfull, hholds.same hholds'⟩
  rw [indexAll, List.foldlM_cons, hfirst]
  exact hrun

/-- A swap, a rename, a new file at the freed path and a deletion, indexed at four HEADs. -/
theorem incremental_passes_eq_rescan_swap :
    let policy : Policy := ⟨fun _ => false, fun _ => false⟩
    let h : History :=
      [⟨⟨"0", "ann", 10, ['a'], ["a", "b"], []⟩, ["a", "b"]⟩,
       ⟨⟨"1", "bob", 20, ['s'], ["a", "b"], [("a", "b"), ("b", "a")]⟩, ["a", "b"]⟩,
       ⟨⟨"2", "ann", 30, ['r'], ["c"], [("a", "c")]⟩, ["b", "c"]⟩,
       ⟨⟨"3", "ann", 40, ['f', 'i', 'x', ':'], ["a", "b"], []⟩, ["a", "b", "c"]⟩,
       ⟨⟨"4", "bob", 50, ['d'], ["c"], []⟩, ["a", "b"]⟩]
    ∃ db db', h.indexAll policy ([1, 2, 4] ++ [5]) = some (some (5, db)) ∧ h.fullAt policy 5 = some db' ∧
      SameContent db db' := by
  intro policy h
  exact incremental_passes_eq_rescan policy h (by decide) (by decide) (fun _ _ _ _ _ _ => rfl)
    [1, 2, 4] 5 (by decide) (by decide) (by decide)

/-- The `git_files` row of a path after a run of passes, and after one full pass. -/
def fileRows (policy : Policy) (h : History) (heads : List Nat) (last : Nat) (path : String) :
    Option GitFileRow × Option GitFileRow :=
  ((h.indexAll policy (heads ++ [last])).join.bind fun state => state.2.gitFiles.lookup path,
    (h.fullAt policy last).bind fun db => db.gitFiles.lookup path)

/-- The `git_co_changes` row of a pair after a run of passes, and after one full pass. -/
def pairRows (policy : Policy) (h : History) (heads : List Nat) (last : Nat) (pair : String × String) :
    Option CoChangeRow × Option CoChangeRow :=
  ((h.indexAll policy (heads ++ [last])).join.bind fun state => state.2.gitCoChanges.lookup pair,
    (h.fullAt policy last).bind fun db => db.gitCoChanges.lookup pair)

/-- Four histories where the passes do not compose. A file created at a renamed-away path is deleted after
the pass that followed the rename; a path is renamed out of sight and back, with a pass between the renames;
a rename out of sight takes a commit below the cap on its files; the HEAD of an earlier pass is dated long
after the others. -/
theorem incremental_passes_diverge :
    let plain : Policy := ⟨fun _ => false, fun _ => false⟩
    let vendored : Policy := ⟨fun path => path == "v", fun _ => false⟩
    let reused : History :=
      [⟨⟨"0", "ann", 10, [], ["a"], []⟩, ["a"]⟩, ⟨⟨"1", "ann", 20, [], ["b"], [("a", "b")]⟩, ["b"]⟩,
       ⟨⟨"2", "ann", 30, [], ["a"], []⟩, ["a", "b"]⟩, ⟨⟨"3", "ann", 40, [], ["a"], []⟩, ["b"]⟩]
    let hidden : History :=
      [⟨⟨"0", "ann", 10, [], ["a"], []⟩, ["a"]⟩, ⟨⟨"1", "ann", 20, [], ["v"], [("a", "v")]⟩, ["v"]⟩,
       ⟨⟨"2", "ann", 30, [], ["c"], [("v", "c")]⟩, ["c"]⟩]
    let names := (List.range 31).map fun n => String.ofList (List.replicate (n + 1) 'f')
    let tests : Policy := ⟨fun path => path == "v", fun path => path != "ff"⟩
    let crowded : History :=
      [⟨⟨"0", "ann", 10, [], names, []⟩, names⟩, ⟨⟨"1", "ann", 20, [], ["v"], [("f", "v")]⟩, "v" :: names.tail⟩]
    let skewed : History :=
      [⟨⟨"0", "ann", 10, [], ["a"], []⟩, ["a"]⟩, ⟨⟨"1", "ann", 100000000, [], ["a"], []⟩, ["a"]⟩,
       ⟨⟨"2", "ann", 20, [], ["a"], []⟩, ["a"]⟩]
    (reused.WellFormed ∧ reused.WindowAt 4 ∧
      fileRows plain reused [2] 4 "b" = (some ⟨0, 2, some 20⟩, some ⟨0, 4, some 40⟩)) ∧
    (hidden.WellFormed ∧ hidden.WindowAt 3 ∧
      fileRows vendored hidden [2] 3 "c" = (some ⟨0, 1, some 30⟩, some ⟨0, 2, some 30⟩)) ∧
    (crowded.WellFormed ∧ crowded.WindowAt 2 ∧
      pairRows tests crowded [1] 2 ("ff", "fff") = (none, some ⟨1, some 10, some 10, 1, 1⟩)) ∧
    (skewed.WellFormed ∧ skewed.WindowAt 3 ∧
      fileRows plain skewed [2] 3 "a" = (some ⟨0, 2, some 100000000⟩, some ⟨0, 3, some 100000000⟩)) := by
  intro plain vendored reused hidden names tests crowded skewed
  refine ⟨⟨?_, ?_, ?_⟩, ⟨?_, ?_, ?_⟩, ⟨?_, ?_, ?_⟩, ?_, ?_, ?_⟩
  all_goals decide

end Runs

end Git
end CodeSage
