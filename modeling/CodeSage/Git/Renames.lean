import Mathlib.Algebra.Order.Ring.Int
import CodeSage.Git.Log
import CodeSage.Git.Linear

/-!
# CodeSage.Git.Renames

Which path a change is keyed to by `follow_renames`. `forward` is one commit's renames applied at once, `push`
carries a path through the commits newer than it, oldest first. The successor map, built newest first, is
the push over everything read so far; and forgetting the line counts turns this function into the one the
pass is modelled with.
-/

namespace CodeSage
namespace Git
namespace Log

open Lib

/-- The name a path has after a commit with these renames. -/
def forward (renames : List (String × String)) (path : String) : String :=
  ((renames.find? fun r => r.1 = path).map Prod.snd).getD path

/-- The name a path has after the commits `newer`, newest first. -/
def push (newer : List LogCommit) (path : String) : String :=
  newer.foldr (fun commit path => forward commit.renames path) path

/-- The sum of counts, as far as a `u32` holds it. -/
def saturatingSum (counts : List UInt32) : UInt32 := UInt32.ofNat (min (counts.map UInt32.toNat).sum (2 ^ 32 - 1))

/-- Distinct paths are renamed by a commit. -/
def DistinctOlds (commits : List LogCommit) : Prop := ∀ c ∈ commits, (c.renames.map Prod.fst).Nodup

section Forward

variable {renames : List (String × String)} {path new : String}

theorem forward_of_mem (h : (renames.map Prod.fst).Nodup) (hmem : (path, new) ∈ renames) :
    forward renames path = new := by
  have hkey : renames.find? (fun r => r.1 = path) = some (path, new) := by
    induction renames with
    | nil => cases hmem
    | cons r renames ih =>
      rw [List.map_cons, List.nodup_cons] at h
      rcases List.mem_cons.mp hmem with rfl | hmem
      · simp
      · have hne : r.1 ≠ path := by
          rintro rfl
          exact h.1 (List.mem_map.mpr ⟨_, hmem, rfl⟩)
        rw [List.find?_cons_of_neg (by simpa using hne)]
        exact ih h.2 hmem
  rw [forward, hkey]
  rfl

theorem forward_of_notMem (h : path ∉ renames.map Prod.fst) : forward renames path = path := by
  have hnone : renames.find? (fun r => r.1 = path) = none := by
    rw [List.find?_eq_none]
    intro r hr heq
    exact h (List.mem_map.mpr ⟨r, hr, of_decide_eq_true heq⟩)
  rw [forward, hnone]
  rfl

theorem renamedTo_eq_forward (h : (renames.map Prod.fst).Nodup) (path : String) :
    renamedTo renames path = forward renames path := by
  by_cases hmem : path ∈ renames.map Prod.fst
  · exact (forward_of_mem h (renamedTo_of_mem hmem)).symm
  · rw [renamedTo_of_notMem hmem, forward_of_notMem hmem]

end Forward

section Successors

/-- The map holds no path under its own name. -/
def Proper (successor : Successor) : Prop := ∀ path, successor.lookup path ≠ some path

theorem Proper.move {successor : Successor} (h : Proper successor) (m : String × String) :
    Proper (successor.move m) := by
  intro path
  unfold Successor.move
  split
  · rw [lookup_erase]
    split
    · exact nofun
    · exact h path
  · rename_i hne
    rw [lookup_insert]
    split
    · rename_i hpath
      intro hsome
      exact hne (hpath.symm.trans (Option.some.inj hsome).symm)
    · exact h path

theorem Proper.follow {successor : Successor} (h : Proper successor) (renames : List (String × String)) :
    Proper (successor.follow renames) := by
  unfold Successor.follow
  generalize renames.map (fun r => (r.1, successor.current r.2)) = moves
  induction moves generalizing successor with
  | nil => exact h
  | cons m moves ih => exact ih (h.move m)

/-- A proper map is its `current`, where that moves a path. -/
theorem Proper.lookup_iff {successor : Successor} (h : Proper successor) (path new : String) :
    successor.lookup path = some new ↔ successor.current path = new ∧ path ≠ new := by
  unfold Successor.current
  cases hlookup : successor.lookup path with
  | none =>
    constructor
    · exact nofun
    · rintro ⟨hcurrent, hne⟩
      exact absurd hcurrent hne
  | some q =>
    rw [Option.getD_some, Option.some.injEq]
    constructor
    · rintro rfl
      refine ⟨rfl, fun heq => h path ?_⟩
      rw [hlookup, ← heq]
    · exact fun hq => hq.1

end Successors

section Merged

theorem toNat_saturatingSum (counts : List UInt32) :
    (saturatingSum counts).toNat = min (counts.map UInt32.toNat).sum (2 ^ 32 - 1) := by
  rw [saturatingSum, UInt32.toNat_ofNat']
  exact Nat.mod_eq_of_lt (by omega)

theorem saturatingSum_concat (counts : List UInt32) (n : UInt32) :
    saturatingAdd (saturatingSum counts) n = saturatingSum (counts ++ [n]) := by
  have hn : n.toNat < 2 ^ 32 := n.toNat_lt
  rw [saturatingAdd, toNat_saturatingSum, saturatingSum, List.map_append, List.sum_append]
  congr 1
  simp only [List.map_cons, List.map_nil, List.sum_cons, List.sum_nil, Nat.add_zero]
  omega

theorem saturatingSum_singleton (n : UInt32) : saturatingSum [n] = n := by
  have hn : n.toNat < 2 ^ 32 := n.toNat_lt
  rw [← UInt32.toNat_inj, toNat_saturatingSum]
  simp only [List.map_cons, List.map_nil, List.sum_cons, List.sum_nil, Nat.add_zero]
  omega

/-- What a merged list holds for a path. -/
def totalFor (changes : List FileChange) (path : String) : Option FileChange :=
  let here := changes.filter (·.path = path)
  if here = [] then none
  else some { path, added := saturatingSum (here.map (·.added)), deleted := saturatingSum (here.map (·.deleted)) }

theorem totalFor_path {changes : List FileChange} {path : String} {m : FileChange}
    (h : totalFor changes path = some m) : m.path = path := by
  simp only [totalFor] at h
  split at h
  · cases h
  · cases h
    rfl

theorem totalFor_concat (changes : List FileChange) (change : FileChange) (path : String) :
    totalFor (changes ++ [change]) path =
      if change.path = path then
        some { path, added := saturatingSum ((changes.filter (·.path = path)).map (·.added) ++ [change.added]),
               deleted := saturatingSum ((changes.filter (·.path = path)).map (·.deleted) ++ [change.deleted]) }
      else totalFor changes path := by
  rw [totalFor, List.filter_append]
  by_cases hpath : change.path = path
  · rw [if_pos hpath, List.filter_cons_of_pos (by simpa using hpath)]
    simp
  · rw [if_neg hpath, List.filter_cons_of_neg (by simpa using hpath)]
    simp [totalFor]

/-- A change added to the entries of its path. -/
def FileChange.plus (change m : FileChange) : FileChange :=
  if m.path = change.path then
    { m with added := saturatingAdd m.added change.added, deleted := saturatingAdd m.deleted change.deleted }
  else m

theorem FileChange.plus_path (change m : FileChange) : (change.plus m).path = m.path := by
  unfold FileChange.plus
  split <;> rfl

theorem mergeChange_of_notMem {merged : List FileChange} {change : FileChange}
    (h : change.path ∉ merged.map (·.path)) : mergeChange merged change = merged ++ [change] := by
  have hnone : merged.findIdx? (·.path = change.path) = none := by
    rw [List.findIdx?_eq_none_iff]
    intro m hm
    refine decide_eq_false fun heq => h ?_
    exact List.mem_map.mpr ⟨m, hm, heq⟩
  rw [mergeChange, hnone]

theorem mergeChange_of_mem {merged : List FileChange} {change : FileChange} (hnodup : (merged.map (·.path)).Nodup)
    (h : change.path ∈ merged.map (·.path)) : mergeChange merged change = merged.map change.plus := by
  induction merged with
  | nil => cases h
  | cons m merged ih =>
    rw [List.map_cons, List.nodup_cons] at hnodup
    by_cases hm : m.path = change.path
    · have hrest : merged.map change.plus = merged := by
        refine (List.map_congr_left fun x hx => if_neg fun heq => hnodup.1 ?_).trans (List.map_id' merged)
        exact List.mem_map.mpr ⟨x, hx, heq.trans hm.symm⟩
      rw [mergeChange, List.findIdx?_cons, if_pos (decide_eq_true hm), List.map_cons, hrest]
      simp [FileChange.plus, hm]
    · have hmem : change.path ∈ merged.map (·.path) := by
        rcases List.mem_cons.mp h with heq | hmem
        · exact absurd heq.symm hm
        · exact hmem
      have ih := ih hnodup.2 hmem
      have hstep : mergeChange (m :: merged) change = m :: mergeChange merged change := by
        rw [mergeChange, mergeChange, List.findIdx?_cons, if_neg (by simpa using hm)]
        cases merged.findIdx? fun x => x.path = change.path <;> rfl
      rw [hstep, ih, List.map_cons]
      simp [FileChange.plus, hm]

/-- The entries of a merged list: one a path, with the total of its changes. -/
structure Merges (merged changes : List FileChange) : Prop where
  nodup : (merged.map (·.path)).Nodup
  total : ∀ path, merged.find? (·.path = path) = totalFor changes path

theorem Merges.mem_iff {merged changes : List FileChange} (h : Merges merged changes) (path : String) :
    path ∈ merged.map (·.path) ↔ changes.filter (·.path = path) ≠ [] := by
  have hfind : path ∈ merged.map (·.path) ↔ merged.find? (·.path = path) ≠ none := by
    rw [Ne, List.find?_eq_none]
    simp
  rw [hfind, h.total, totalFor]
  split
  · rename_i hnil
    simp [hnil]
  · rename_i hne
    simpa using hne

theorem Merges.mergeChange {merged changes : List FileChange} (h : Merges merged changes) (change : FileChange) :
    Merges (mergeChange merged change) (changes ++ [change]) := by
  by_cases hmem : change.path ∈ merged.map (·.path)
  · rw [mergeChange_of_mem h.nodup hmem]
    have hpaths : (merged.map change.plus).map (·.path) = merged.map (·.path) := by
      rw [List.map_map]
      exact List.map_congr_left fun m _ => change.plus_path m
    refine ⟨hpaths ▸ h.nodup, fun path => ?_⟩
    have hsame : ((fun m : FileChange => decide (m.path = path)) ∘ change.plus) = fun m => decide (m.path = path) := by
      funext m
      rw [Function.comp, change.plus_path]
    rw [List.find?_map, hsame, h.total, totalFor_concat]
    by_cases hpath : change.path = path
    · have hne : changes.filter (·.path = path) ≠ [] := (h.mem_iff path).mp (hpath ▸ hmem)
      rw [if_pos hpath, totalFor, if_neg hne, Option.map_some, FileChange.plus, if_pos hpath.symm]
      simp only [saturatingSum_concat]
    · rw [if_neg hpath]
      cases htotal : totalFor changes path with
      | none => rfl
      | some m =>
        have hm : m.path = path := totalFor_path htotal
        rw [Option.map_some, FileChange.plus, if_neg fun heq => hpath (heq.symm.trans hm)]
  · rw [mergeChange_of_notMem hmem]
    have hnil : changes.filter (·.path = change.path) = [] := by
      by_contra hne
      exact hmem ((h.mem_iff change.path).mpr hne)
    constructor
    · rw [List.map_append, List.nodup_append]
      refine ⟨h.nodup, List.nodup_singleton _, ?_⟩
      rintro a ha b hb rfl
      rw [List.map_singleton, List.mem_singleton] at hb
      exact hmem (hb ▸ ha)
    · intro path
      rw [List.find?_append, h.total, totalFor_concat]
      by_cases hpath : change.path = path
      · subst hpath
        rw [if_pos rfl, totalFor, if_pos hnil, hnil]
        simp [saturatingSum_singleton]
      · rw [if_neg hpath]
        simp [hpath]

theorem merges_mergeSamePath (changes : List FileChange) : Merges (mergeSamePath changes) changes := by
  induction changes using List.reverseRecOn with
  | nil => exact ⟨List.nodup_nil, fun path => rfl⟩
  | append_singleton changes change ih =>
    rw [mergeSamePath, List.foldl_append]
    exact ih.mergeChange change

end Merged

section Followed

variable {policy : Policy}

theorem push_concat (newer : List LogCommit) (commit : LogCommit) (path : String) :
    push (newer ++ [commit]) path = push newer (forward commit.renames path) := by
  rw [push, List.foldr_append]
  rfl

/-- The changes of a commit that are kept, under the names they are keyed to. -/
def keyedBy (policy : Policy) (newer : List LogCommit) (commit : LogCommit) : List FileChange :=
  (commit.changes.filter fun change => !policy.excluded change.path).map fun change =>
    { change with path := push newer change.path }

/-- The loop: with the commits `newer` behind it, the map is their push, and each further commit is keyed by
all that are newer than it. -/
theorem followRenames_spec : ∀ {commits newer : List LogCommit} {successor : Successor},
    DistinctOlds commits → Proper successor → (∀ path, successor.current path = push newer path) →
    (followRenames policy commits successor).1 = commits.mapIdx (fun i commit =>
      { commit with changes := mergeSamePath (keyedBy policy (newer ++ commits.take i) commit) }) ∧
    Proper (followRenames policy commits successor).2 ∧
    ∀ path, (followRenames policy commits successor).2.current path = push (newer ++ commits) path := by
  intro commits
  induction commits with
  | nil =>
    intro newer successor _ hproper hpush
    exact ⟨rfl, hproper, fun path => by rw [List.append_nil]; exact hpush path⟩
  | cons commit commits ih =>
    intro newer successor hdistinct hproper hpush
    have hcommit := hdistinct commit List.mem_cons_self
    have hnext : ∀ path, (successor.follow commit.renames).current path = push (newer ++ [commit]) path := by
      intro path
      rw [current_follow, renamedTo_eq_forward hcommit, hpush, push_concat]
    obtain ⟨hrest, hproper', hpush'⟩ := ih (fun c hc => hdistinct c (List.mem_cons_of_mem _ hc))
      (hproper.follow commit.renames) hnext
    have hkeyed : (commit.changes.filter fun change => !policy.excluded change.path).map (fun change =>
        { change with path := successor.current change.path }) = keyedBy policy newer commit := by
      simp only [keyedBy, hpush]
    rw [followRenames, hkeyed, List.mapIdx_cons, List.take_zero, List.append_nil]
    refine ⟨?_, hproper', fun path => ?_⟩
    · rw [hrest]
      simp only [List.append_assoc, List.singleton_append, List.take_succ_cons]
    · rw [hpush' path, List.append_assoc, List.singleton_append]

/-- Every kept change is counted once, under the name its path has after all newer commits; and the map
returned is that renaming, for the paths it moves. -/
theorem follow_renames_pushes_forward (policy : Policy) (commits : List LogCommit) (h : DistinctOlds commits) :
    (followRenames policy commits ∅).1.length = commits.length ∧
    (∀ (i : Nat) (commit : LogCommit), commits[i]? = some commit →
      ∃ followed : LogCommit, (followRenames policy commits ∅).1[i]? = some followed ∧
      followed = { commit with changes := followed.changes } ∧
      (followed.changes.map (·.path)).Nodup ∧
      ∀ path, followed.changes.find? (·.path = path) =
        let here := commit.changes.filter fun change =>
          !policy.excluded change.path && decide (push (commits.take i) change.path = path)
        if here = [] then none
        else some { path, added := saturatingSum (here.map (·.added)),
                    deleted := saturatingSum (here.map (·.deleted)) }) ∧
    ∀ old new, (followRenames policy commits ∅).2.lookup old = some new ↔ push commits old = new ∧ old ≠ new := by
  have hempty : Proper ∅ := fun path hlookup => by cases hlookup
  obtain ⟨hfollowed, hproper, hpush⟩ := @followRenames_spec policy commits [] ∅ h hempty fun path => rfl
  refine ⟨?_, ?_, ?_⟩
  · rw [hfollowed, List.length_mapIdx]
  · intro i commit hcommit
    refine ⟨_, by rw [hfollowed, List.getElem?_mapIdx, hcommit]; rfl, rfl, ?_⟩
    have hmerges := merges_mergeSamePath (keyedBy policy ([] ++ commits.take i) commit)
    refine ⟨hmerges.nodup, fun path => ?_⟩
    have hhere : (keyedBy policy ([] ++ commits.take i) commit).filter (fun change => change.path = path) =
        (commit.changes.filter fun change =>
          !policy.excluded change.path && decide (push (commits.take i) change.path = path)).map fun change =>
            { change with path := push (commits.take i) change.path } := by
      rw [keyedBy, List.nil_append, List.filter_map, List.filter_filter]
      congr 1
      refine List.filter_congr fun change _ => ?_
      rw [Bool.and_comm]
      rfl
    rw [hmerges.total, totalFor, hhere]
    simp only [List.map_eq_nil_iff, List.map_map]
    rfl
  · intro old new
    rw [hproper.lookup_iff, hpush, List.nil_append]

/-- Two files swapped by the newest commit, one of them a renamed third. -/
def swapped : List LogCommit :=
  [{ sha := "3", author := "", timestamp := 3, subject := [], changes := [⟨"b", 1, 0⟩, ⟨"a", 2, 0⟩],
     renames := [("a", "b"), ("b", "a")] },
   { sha := "2", author := "", timestamp := 2, subject := [], changes := [⟨"a", 5, 5⟩], renames := [("c", "a")] },
   { sha := "1", author := "", timestamp := 1, subject := [], changes := [⟨"c", 7, 1⟩, ⟨"a", 1, 1⟩], renames := [] }]

instance (commits : List LogCommit) : Decidable (DistinctOlds commits) := List.decidableBAll _ _

/-- The oldest change of `c` is counted for `b`. -/
theorem follow_renames_pushes_forward_swapped : DistinctOlds swapped ∧ push swapped "c" = "b" ∧
    (followRenames ⟨fun _ => false, fun _ => false⟩ swapped ∅).2.lookup "c" = some "b" := by
  have hdistinct : DistinctOlds swapped := by decide
  have hpush : push swapped "c" = "b" := by decide
  have hmap := (follow_renames_pushes_forward ⟨fun _ => false, fun _ => false⟩ swapped hdistinct).2.2
  exact ⟨hdistinct, hpush, (hmap "c" "b").mpr ⟨hpush, by decide⟩⟩

theorem map_path_mergeChange (merged : List FileChange) (change : FileChange) :
    (mergeChange merged change).map (·.path) =
      if change.path ∈ merged.map (·.path) then merged.map (·.path) else merged.map (·.path) ++ [change.path] := by
  by_cases hmem : change.path ∈ merged.map (·.path)
  · rw [if_pos hmem, mergeChange]
    have hpaths : ∀ (i : Nat) (f : FileChange → FileChange), (∀ m, (f m).path = m.path) →
        (merged.modify i f).map (·.path) = merged.map (·.path) := by
      intro i f hf
      refine List.ext_getElem? fun j => ?_
      rw [List.getElem?_map, List.getElem?_modify, List.getElem?_map]
      cases merged[j]? with
      | none => rfl
      | some m =>
        simp only [Option.map_some]
        split
        · exact congrArg some (hf m)
        · rfl
    cases hidx : merged.findIdx? fun m => m.path = change.path with
    | some i => exact hpaths i _ fun m => rfl
    | none =>
      obtain ⟨m, hm, heq⟩ := List.mem_map.mp hmem
      have := List.findIdx?_eq_none_iff.mp hidx m hm
      simp [heq] at this
  · rw [if_neg hmem, mergeChange_of_notMem hmem, List.map_append, List.map_singleton]

/-- Without the counts this is the merge of the pass. -/
theorem map_path_mergeSamePath (changes : List FileChange) :
    (mergeSamePath changes).map (·.path) = Git.mergeSamePath (changes.map (·.path)) := by
  induction changes using List.reverseRecOn with
  | nil => rfl
  | append_singleton changes change ih =>
    rw [mergeSamePath, List.foldl_append, List.map_append, List.map_singleton, mergeSamePath_concat, ← ih]
    exact map_path_mergeChange _ change

/-- Without the counts this is `follow_renames` of the pass. -/
theorem counted_followRenames : ∀ (commits : List LogCommit) (successor : Successor),
    Git.followRenames policy (commits.map LogCommit.counted) successor =
      ((followRenames policy commits successor).1.map LogCommit.counted, (followRenames policy commits successor).2) := by
  intro commits
  induction commits with
  | nil => exact fun successor => rfl
  | cons commit commits ih =>
    intro successor
    rw [List.map_cons, Git.followRenames, followRenames, ih, List.map_cons]
    refine Prod.ext (congrArg (· :: _) ?_) rfl
    simp only [LogCommit.counted, map_path_mergeSamePath, List.map_map, List.filter_map]
    rfl

end Followed

end Log
end Git
end CodeSage
