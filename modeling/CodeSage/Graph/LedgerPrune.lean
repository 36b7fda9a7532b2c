import Mathlib.Algebra.Order.Ring.Int
import CodeSage.Lib.TextOrder
import Mathlib.Algebra.BigOperators.Group.List.Basic
import Mathlib.Data.List.Perm.Basic
import Mathlib.Data.List.Sort

/-!
# CodeSage.Graph.LedgerPrune

Pruning a directory of session ledgers, `prune_ledgers_with_limits` (`crates/graph/src/session_ledger.rs`).
Times are nanoseconds from the Unix epoch. Every removal succeeds.

`prune_iff` says when a pruned directory is what the comment at `prune_ledgers` promises: a ledger that does not
fit is passed over, and an older one behind it may still be kept.
-/

namespace CodeSage
namespace Graph
namespace LedgerPrune

open Lib

section Code

def LEDGER_SUFFIX : Text := ".calls.jsonl".toList

/-- A directory entry with what `symlink_metadata` says of it, and its time where one can be read. -/
structure Entry where
  name : Text
  isFile : Bool
  modified : Option Int
  len : UInt64
deriving DecidableEq, Repr

structure Ledger where
  mtime : Int
  len : UInt64
  name : Text
deriving DecidableEq, Repr

def U64_MAX : Nat := 2 ^ 64 - 1

/-- The earliest time a `SystemTime` can hold. -/
def EARLIEST : Int := -2 ^ 63 * 1000000000

def cutoff (now : Int) (maxAge : Nat) : Int := if EARLIEST ≤ now - maxAge then now - maxAge else 0

def Other (keep : Text) (entry : Entry) : Prop :=
  entry.name ≠ keep ∧ LEDGER_SUFFIX.isSuffixOf entry.name = true ∧ entry.isFile = true

instance (keep : Text) (entry : Entry) : Decidable (Other keep entry) := inferInstanceAs (Decidable (_ ∧ _))

/-- The other ledgers of the directory. -/
def ledgers (keep : Text) (dir : List Entry) : List Ledger :=
  (dir.filter fun entry => Other keep entry).map fun entry =>
    { mtime := entry.modified.getD 0, len := entry.len, name := entry.name }

/-- Newest first, and by name among those of one time. -/
def newestFirst (a b : Ledger) : Prop := b.mtime < a.mtime ∨ a.mtime = b.mtime ∧ textLe a.name b.name = true

instance : DecidableRel newestFirst := fun _ _ => inferInstanceAs (Decidable (_ ∨ _))

def sorted (keep : Text) (dir : List Entry) : List Ledger := (ledgers keep dir).insertionSort newestFirst

structure Limits where
  cutoff : Int
  maxFiles : Nat
  maxBytes : UInt64

/-- The files and bytes kept so far. -/
structure Room where
  files : Nat
  bytes : Nat

def saturatingAdd (a b : Nat) : Nat := min (a + b) U64_MAX

def Fits (limits : Limits) (room : Room) (ledger : Ledger) : Prop :=
  limits.cutoff ≤ ledger.mtime ∧ room.files < limits.maxFiles ∧ saturatingAdd room.bytes ledger.len.toNat ≤ limits.maxBytes.toNat

instance (limits : Limits) (room : Room) (ledger : Ledger) : Decidable (Fits limits room ledger) :=
  inferInstanceAs (Decidable (_ ∧ _))

def Room.after (limits : Limits) (room : Room) (ledger : Ledger) : Room :=
  if Fits limits room ledger then { files := room.files + 1, bytes := saturatingAdd room.bytes ledger.len.toNat } else room

/-- The ledgers that are deleted. -/
def dropped (limits : Limits) : Room → List Ledger → List Ledger
  | _, [] => []
  | room, ledger :: rest =>
    if Fits limits room ledger then dropped limits (room.after limits ledger) rest else ledger :: dropped limits room rest

/-- `metadata(keep).map_or(0, |meta| meta.len())` -/
def keptBytes (keep : Text) (dir : List Entry) : UInt64 := ((dir.find? fun entry => entry.name = keep).map (·.len)).getD 0

def start (keep : Text) (dir : List Entry) : Room := { files := 1, bytes := (keptBytes keep dir).toNat }

/-- The directory afterwards, and the number of ledgers removed. -/
def pruneLedgersWithLimits (now : Int) (keep : Text) (maxFiles : Nat) (maxBytes : UInt64) (maxAge : Nat) (dir : List Entry) :
    List Entry × Nat :=
  let limits : Limits := { cutoff := cutoff now maxAge, maxFiles := maxFiles, maxBytes := maxBytes }
  let removed := dropped limits (start keep dir) (sorted keep dir)
  (dir.filter fun entry => entry.name ∉ removed.map Ledger.name, removed.length)

end Code

section Specification

/-- What pruning promises of the directory it leaves. -/
structure Pruned (now : Int) (keep : Text) (maxFiles : Nat) (maxBytes : UInt64) (maxAge : Nat) (dir after : List Entry) : Prop where
  keeps : ∀ entry ∈ dir, entry.name = keep → entry ∈ after
  young : ∀ ledger ∈ ledgers keep after, cutoff now maxAge ≤ ledger.mtime
  files : (ledgers keep after).length + 1 ≤ max maxFiles 1
  bytes : (keptBytes keep dir).toNat + ((ledgers keep after).map fun ledger => ledger.len.toNat).sum ≤
    max maxBytes.toNat (keptBytes keep dir).toNat
  oldest : ∀ gone ∈ ledgers keep dir, gone ∉ ledgers keep after → ∀ ledger ∈ ledgers keep after, gone.mtime ≤ ledger.mtime

/-- Behind the first ledger that does not fit and those of its time, no older one fits. -/
def NothingOlderFits (limits : Limits) : Room → List Ledger → Prop
  | _, [] => True
  | room, ledger :: rest =>
    if Fits limits room ledger then NothingOlderFits limits (room.after limits ledger) rest
    else ∀ older ∈ rest, older.mtime < ledger.mtime →
      ¬Fits limits ((rest.takeWhile fun same => same.mtime = ledger.mtime).foldl (Room.after limits) room) older

/-- The bytes of the newest ledgers, as many as may stay. -/
def newestBytes (limits : Limits) (sorted : List Ledger) : Nat :=
  (((sorted.filter fun ledger => limits.cutoff ≤ ledger.mtime).take (limits.maxFiles - 1)).map fun ledger => ledger.len.toNat).sum

end Specification

section Loop

variable {limits : Limits}

/-- The ledgers that stay. -/
def kept (limits : Limits) : Room → List Ledger → List Ledger
  | _, [] => []
  | room, ledger :: rest =>
    if Fits limits room ledger then ledger :: kept limits (room.after limits ledger) rest else kept limits room rest

theorem Room.after_of_fits {room : Room} {ledger : Ledger} (h : Fits limits room ledger) :
    room.after limits ledger = { files := room.files + 1, bytes := saturatingAdd room.bytes ledger.len.toNat } := if_pos h

theorem Room.after_of_not_fits {room : Room} {ledger : Ledger} (h : ¬Fits limits room ledger) : room.after limits ledger = room := if_neg h

theorem kept_sublist (room : Room) (l : List Ledger) : (kept limits room l).Sublist l := by
  induction l generalizing room with
  | nil => exact List.Sublist.refl _
  | cons ledger rest ih =>
    rw [kept]
    split
    · exact (ih _).cons_cons ledger
    · exact (ih _).cons ledger

theorem dropped_sublist (room : Room) (l : List Ledger) : (dropped limits room l).Sublist l := by
  induction l generalizing room with
  | nil => exact List.Sublist.refl _
  | cons ledger rest ih =>
    rw [dropped]
    split
    · exact (ih _).cons ledger
    · exact (ih _).cons_cons ledger

theorem mem_kept_or_dropped {room : Room} {l : List Ledger} {ledger : Ledger} (h : ledger ∈ l) :
    ledger ∈ kept limits room l ∨ ledger ∈ dropped limits room l := by
  induction l generalizing room with
  | nil => cases h
  | cons first rest ih =>
    rw [kept, dropped]
    split
    · rcases List.mem_cons.mp h with rfl | h
      · exact Or.inl List.mem_cons_self
      · exact (ih h).imp (List.mem_cons_of_mem _) id
    · rcases List.mem_cons.mp h with rfl | h
      · exact Or.inr List.mem_cons_self
      · exact (ih h).imp id (List.mem_cons_of_mem _)

/-- What is left of the directory after the removals, as ledgers have different names. -/
theorem filter_dropped {room : Room} {l : List Ledger} (hnames : (l.map Ledger.name).Nodup) :
    (l.filter fun ledger => ledger.name ∉ (dropped limits room l).map Ledger.name) = kept limits room l := by
  induction l generalizing room with
  | nil => rfl
  | cons ledger rest ih =>
    obtain ⟨hnew, hrest⟩ := List.nodup_cons.mp hnames
    rw [kept, dropped]
    split
    · have hnot : ledger.name ∉ (dropped limits (room.after limits ledger) rest).map Ledger.name :=
        fun hmem => hnew ((dropped_sublist _ _).map Ledger.name |>.subset hmem)
      rw [List.filter_cons_of_pos (by simpa using hnot), ih hrest]
    · rw [List.filter_cons_of_neg (by simp), ← @ih room hrest]
      refine List.filter_congr fun other hother => ?_
      have hne : other.name ≠ ledger.name := fun heq => hnew (heq ▸ List.mem_map_of_mem hother)
      simp [hne]

theorem kept_young {room : Room} {l : List Ledger} : ∀ ledger ∈ kept limits room l, limits.cutoff ≤ ledger.mtime := by
  induction l generalizing room with
  | nil => exact nofun
  | cons first rest ih =>
    rw [kept]
    split
    · rename_i hfits
      exact List.forall_mem_cons.mpr ⟨hfits.1, ih⟩
    · exact ih

theorem files_kept (room : Room) (l : List Ledger) : room.files + (kept limits room l).length ≤ max limits.maxFiles room.files := by
  induction l generalizing room with
  | nil => exact Nat.le_max_right _ _
  | cons first rest ih =>
    rw [kept]
    split
    · rename_i hfits
      have := ih (room.after limits first)
      rw [Room.after_of_fits hfits] at this
      dsimp only at this
      have hfiles := hfits.2.1
      rw [List.length_cons, Room.after_of_fits hfits]
      omega
    · exact ih room

/-- The bytes kept, with additions that stop at the largest number. -/
theorem bytes_kept {room : Room} {l : List Ledger} (hroom : room.bytes ≤ U64_MAX) :
    kept limits room l = [] ∨
      min (room.bytes + ((kept limits room l).map fun ledger => ledger.len.toNat).sum) U64_MAX ≤ limits.maxBytes.toNat := by
  induction l generalizing room with
  | nil => exact Or.inl rfl
  | cons first rest ih =>
    rw [kept]
    split
    · rename_i hfits
      have hbytes := hfits.2.2
      rw [saturatingAdd] at hbytes
      have := @ih (room.after limits first) (by rw [Room.after_of_fits hfits]; exact Nat.min_le_right _ _)
      rw [Room.after_of_fits hfits] at this ⊢
      rw [saturatingAdd] at this ⊢
      refine Or.inr ?_
      rw [List.map_cons, List.sum_cons]
      rcases this with hnil | hmore
      · rw [hnil, List.map_nil, List.sum_nil]
        exact hbytes
      · dsimp only at hmore
        omega
    · exact ih hroom

theorem kept_append (room : Room) (a b : List Ledger) :
    kept limits room (a ++ b) = kept limits room a ++ kept limits (a.foldl (Room.after limits) room) b := by
  induction a generalizing room with
  | nil => rfl
  | cons first rest ih =>
    rw [List.cons_append, kept, kept, List.foldl_cons]
    by_cases hfits : Fits limits room first
    · rw [if_pos hfits, if_pos hfits, ih, List.cons_append]
    · rw [if_neg hfits, if_neg hfits, ih, Room.after_of_not_fits hfits]

theorem kept_eq_nil_iff {room : Room} {l : List Ledger} : kept limits room l = [] ↔ ∀ ledger ∈ l, ¬Fits limits room ledger := by
  induction l with
  | nil => simp [kept]
  | cons first rest ih =>
    rw [kept, List.forall_mem_cons]
    by_cases hfits : Fits limits room first
    · simp [hfits]
    · simp [hfits, ih]

/-- In a list from the newest on, a ledger that is not of the first one's time is older. -/
theorem older_iff {first : Ledger} {rest : List Ledger} (hsorted : (first :: rest).Pairwise fun a b => b.mtime ≤ a.mtime) {ledger : Ledger} :
    ledger ∈ rest.dropWhile (fun same => same.mtime = first.mtime) ↔ ledger ∈ rest ∧ ledger.mtime < first.mtime := by
  obtain ⟨hfirst, hrest⟩ := List.pairwise_cons.mp hsorted
  constructor
  · intro hmem
    have hin := (List.dropWhile_suffix _).subset hmem
    refine ⟨hin, lt_of_le_of_ne (hfirst ledger hin) fun heq => ?_⟩
    obtain ⟨head, tail, hcons⟩ := List.exists_cons_of_ne_nil (List.ne_nil_of_mem hmem)
    have hhead : ¬head.mtime = first.mtime := by
      have hne : rest.dropWhile (fun same : Ledger => decide (same.mtime = first.mtime)) ≠ [] := by simp [hcons]
      have := List.head_dropWhile_not _ hne
      simpa [hcons] using this
    have hsuffix : (head :: tail).Pairwise fun a b => b.mtime ≤ a.mtime :=
      hrest.sublist (hcons ▸ (List.dropWhile_suffix _).sublist)
    have hheadle : head.mtime ≤ first.mtime := hfirst head ((List.dropWhile_suffix _).subset (by rw [hcons]; exact List.mem_cons_self))
    rw [hcons] at hmem
    rcases List.mem_cons.mp hmem with rfl | hmem
    · exact hhead heq
    · have := (List.pairwise_cons.mp hsuffix).1 ledger hmem
      omega
  · rintro ⟨hmem, hlt⟩
    rw [← List.takeWhile_append_dropWhile (p := fun same : Ledger => decide (same.mtime = first.mtime)) (l := rest)] at hmem
    refine (List.mem_append.mp hmem).resolve_left fun hsame => ?_
    have := List.mem_takeWhile_imp hsame
    simp only [decide_eq_true_eq] at this
    omega

theorem oldest_iff {room : Room} {l : List Ledger} (hsorted : l.Pairwise fun a b => b.mtime ≤ a.mtime) :
    (∀ gone ∈ dropped limits room l, ∀ ledger ∈ kept limits room l, gone.mtime ≤ ledger.mtime) ↔ NothingOlderFits limits room l := by
  induction l generalizing room with
  | nil => exact ⟨fun _ => trivial, fun _ => nofun⟩
  | cons first rest ih =>
    obtain ⟨hfirst, hrest⟩ := List.pairwise_cons.mp hsorted
    rw [kept, dropped, NothingOlderFits]
    by_cases hfits : Fits limits room first
    · rw [if_pos hfits, if_pos hfits, if_pos hfits, ← ih hrest]
      refine forall₂_congr fun gone hgone => ?_
      rw [List.forall_mem_cons]
      exact and_iff_right (hfirst gone ((dropped_sublist _ _).subset hgone))
    · rw [if_neg hfits, if_neg hfits, if_neg hfits, List.forall_mem_cons]
      -- nothing older is kept: what stays behind the first ledger is of its time
      have hnone : (∀ older ∈ rest, older.mtime < first.mtime →
          ¬Fits limits ((rest.takeWhile fun same => same.mtime = first.mtime).foldl (Room.after limits) room) older) ↔
          kept limits ((rest.takeWhile fun same => same.mtime = first.mtime).foldl (Room.after limits) room)
            (rest.dropWhile fun same => same.mtime = first.mtime) = [] := by
        rw [kept_eq_nil_iff]
        constructor
        · intro h older hmem
          obtain ⟨hin, hlt⟩ := (older_iff hsorted).mp hmem
          exact h older hin hlt
        · exact fun h older hin hlt => h older ((older_iff hsorted).mpr ⟨hin, hlt⟩)
      have hsplit : kept limits room rest = kept limits room (rest.takeWhile fun same => same.mtime = first.mtime) ++
          kept limits ((rest.takeWhile fun same => same.mtime = first.mtime).foldl (Room.after limits) room)
            (rest.dropWhile fun same => same.mtime = first.mtime) := by
        rw [← kept_append, List.takeWhile_append_dropWhile]
      rw [hnone]
      constructor
      · rintro ⟨hyoung, -⟩
        refine List.eq_nil_iff_forall_not_mem.mpr fun older hmem => ?_
        have hle := hyoung older (by rw [hsplit]; exact List.mem_append_right _ hmem)
        have := ((older_iff hsorted).mp ((kept_sublist _ _).subset hmem)).2
        omega
      · intro hnil
        rw [hnil, List.append_nil] at hsplit
        have hsame : ∀ ledger ∈ kept limits room rest, ledger.mtime = first.mtime := by
          intro ledger hmem
          rw [hsplit] at hmem
          simpa using List.mem_takeWhile_imp ((kept_sublist _ _).subset hmem)
        refine ⟨fun ledger hmem => (hsame ledger hmem).ge, fun gone hgone ledger hmem => ?_⟩
        rw [hsame ledger hmem]
        exact hfirst gone ((dropped_sublist _ _).subset hgone)

/-- Without a limit on the bytes the newest ledgers stay. -/
theorem kept_eq_take {room : Room} {l : List Ledger} (hmax : limits.maxBytes.toNat = U64_MAX) :
    kept limits room l = (l.filter fun ledger => limits.cutoff ≤ ledger.mtime).take (limits.maxFiles - room.files) := by
  induction l generalizing room with
  | nil => simp [kept]
  | cons first rest ih =>
    rw [kept]
    by_cases hage : limits.cutoff ≤ first.mtime
    · rw [List.filter_cons_of_pos (by simpa using hage)]
      by_cases hfiles : room.files < limits.maxFiles
      · have hfits : Fits limits room first := ⟨hage, hfiles, by rw [hmax]; exact Nat.min_le_right _ _⟩
        obtain ⟨n, hn⟩ : ∃ n, limits.maxFiles - room.files = n + 1 := ⟨limits.maxFiles - room.files - 1, by omega⟩
        rw [if_pos hfits, ih, Room.after_of_fits hfits, hn, List.take_succ_cons]
        congr 2
        dsimp only
        omega
      · have hzero : limits.maxFiles - room.files = 0 := by omega
        rw [if_neg fun hfits => hfiles hfits.2.1, ih, hzero, List.take_zero, List.take_zero]
    · rw [if_neg fun hfits => hage hfits.1, ih, List.filter_cons_of_neg (by simpa using hage)]

end Loop

section Directory

variable {keep : Text} {dir : List Entry}

/-- Removing files by their names removes the ledgers of these names. -/
theorem ledgers_filter (p : Text → Bool) : ledgers keep (dir.filter fun entry => p entry.name) = (ledgers keep dir).filter fun ledger => p ledger.name := by
  rw [ledgers, ledgers, List.filter_map, List.filter_filter, List.filter_filter]
  congr 2
  funext entry
  exact Bool.and_comm _ _

theorem nodup_ledgers (hdir : (dir.map Entry.name).Nodup) : ((ledgers keep dir).map Ledger.name).Nodup := by
  rw [ledgers, List.map_map]
  exact hdir.sublist (List.filter_sublist.map Entry.name)

theorem mem_ledgers_name {ledger : Ledger} (h : ledger ∈ ledgers keep dir) : ledger.name ≠ keep := by
  obtain ⟨entry, hentry, rfl⟩ := List.mem_map.mp h
  have := (List.mem_filter.mp hentry).2
  simp only [decide_eq_true_eq] at this
  exact this.1

theorem perm_sorted : (sorted keep dir).Perm (ledgers keep dir) := List.perm_insertionSort _ _

instance : Std.Total newestFirst where
  total a b := by
    rcases lt_trichotomy a.mtime b.mtime with h | h | h
    · exact Or.inr (Or.inl h)
    · exact (textLe_total a.name b.name).imp (fun hle => Or.inr ⟨h, hle⟩) fun hle => Or.inr ⟨h.symm, hle⟩
    · exact Or.inl (Or.inl h)

instance : IsTrans Ledger newestFirst where
  trans a b c := by
    rintro (hab | ⟨hab, hname⟩) (hbc | ⟨hbc, hname'⟩)
    · exact Or.inl (hbc.trans hab)
    · exact Or.inl (hbc ▸ hab)
    · exact Or.inl (hab ▸ hbc)
    · exact Or.inr ⟨hab.trans hbc, textLe_trans hname hname'⟩

theorem pairwise_sorted : (sorted keep dir).Pairwise fun a b => b.mtime ≤ a.mtime := by
  refine (List.pairwise_insertionSort newestFirst (ledgers keep dir)).imp ?_
  rintro a b (h | ⟨h, -⟩)
  · exact h.le
  · exact h.ge

variable {now : Int} {maxFiles maxAge : Nat} {maxBytes : UInt64}

/-- The ledgers left are those the loop keeps. -/
theorem perm_kept (hdir : (dir.map Entry.name).Nodup) :
    (ledgers keep (pruneLedgersWithLimits now keep maxFiles maxBytes maxAge dir).1).Perm
      (kept ⟨cutoff now maxAge, maxFiles, maxBytes⟩ (start keep dir) (sorted keep dir)) := by
  have hnames : ((sorted keep dir).map Ledger.name).Nodup := (perm_sorted.map _).nodup_iff.mpr (nodup_ledgers hdir)
  have hafter := @ledgers_filter keep dir fun name =>
    name ∉ (dropped ⟨cutoff now maxAge, maxFiles, maxBytes⟩ (start keep dir) (sorted keep dir)).map Ledger.name
  rw [← filter_dropped hnames]
  exact (List.Perm.of_eq hafter).trans (perm_sorted.filter _).symm

theorem keeps_kept : ∀ entry ∈ dir, entry.name = keep →
    entry ∈ (pruneLedgersWithLimits now keep maxFiles maxBytes maxAge dir).1 := by
  intro entry hentry hname
  refine List.mem_filter.mpr ⟨hentry, decide_eq_true fun hmem => ?_⟩
  obtain ⟨ledger, hledger, heq⟩ := List.mem_map.mp hmem
  exact mem_ledgers_name (perm_sorted.mem_iff.mp ((dropped_sublist _ _).subset hledger)) (heq.trans hname)

/-- A ledger is gone if the loop drops it. -/
theorem gone_iff (hdir : (dir.map Entry.name).Nodup) {ledger : Ledger} :
    ledger ∈ ledgers keep dir ∧ ledger ∉ ledgers keep (pruneLedgersWithLimits now keep maxFiles maxBytes maxAge dir).1 ↔
      ledger ∈ dropped ⟨cutoff now maxAge, maxFiles, maxBytes⟩ (start keep dir) (sorted keep dir) := by
  have hnames : ((sorted keep dir).map Ledger.name).Nodup := (perm_sorted.map _).nodup_iff.mpr (nodup_ledgers hdir)
  rw [(perm_kept hdir).mem_iff]
  constructor
  · rintro ⟨hmem, hnot⟩
    exact (mem_kept_or_dropped (perm_sorted.mem_iff.mpr hmem)).resolve_left hnot
  · intro hmem
    refine ⟨perm_sorted.mem_iff.mp ((dropped_sublist _ _).subset hmem), fun hkept => ?_⟩
    rw [← filter_dropped hnames] at hkept
    have := (List.mem_filter.mp hkept).2
    simp only [decide_eq_true_eq] at this
    exact this (List.mem_map_of_mem hmem)

/-- The bytes stay within the bound, but where the bound is the largest number: then the newest ledgers stay,
whatever their size. -/
theorem bytes_iff (hdir : (dir.map Entry.name).Nodup) :
    (keptBytes keep dir).toNat +
        ((ledgers keep (pruneLedgersWithLimits now keep maxFiles maxBytes maxAge dir).1).map fun ledger => ledger.len.toNat).sum ≤
        max maxBytes.toNat (keptBytes keep dir).toNat ↔
      maxBytes.toNat < U64_MAX ∨
        (keptBytes keep dir).toNat + newestBytes ⟨cutoff now maxAge, maxFiles, maxBytes⟩ (sorted keep dir) ≤ U64_MAX := by
  rw [((perm_kept hdir).map _).sum_eq]
  have hkeep : (keptBytes keep dir).toNat ≤ U64_MAX := Nat.le_sub_one_of_lt (keptBytes keep dir).toNat_lt
  have hbytes := @bytes_kept ⟨cutoff now maxAge, maxFiles, maxBytes⟩ (start keep dir) (sorted keep dir) hkeep
  by_cases hmax : maxBytes.toNat < U64_MAX
  · rw [iff_true_right (Or.inl hmax)]
    rcases hbytes with hnil | hbytes
    · rw [hnil]
      exact Nat.le_max_right _ _
    · rw [start] at hbytes ⊢
      dsimp only at hbytes
      omega
  · have heq : maxBytes.toNat = U64_MAX := Nat.le_antisymm (Nat.le_sub_one_of_lt maxBytes.toNat_lt) (Nat.le_of_not_lt hmax)
    rw [or_iff_right hmax, kept_eq_take heq, newestBytes, heq, Nat.max_eq_left hkeep]
    rfl

/-- Pruning keeps what it promises just if nothing older fits behind the first ledger that does not, and the bytes
it adds up are not cut off. -/
theorem prune_iff (hdir : (dir.map Entry.name).Nodup) :
    Pruned now keep maxFiles maxBytes maxAge dir (pruneLedgersWithLimits now keep maxFiles maxBytes maxAge dir).1 ↔
      NothingOlderFits ⟨cutoff now maxAge, maxFiles, maxBytes⟩ (start keep dir) (sorted keep dir) ∧
        (maxBytes.toNat < U64_MAX ∨
          (keptBytes keep dir).toNat + newestBytes ⟨cutoff now maxAge, maxFiles, maxBytes⟩ (sorted keep dir) ≤ U64_MAX) := by
  rw [← bytes_iff hdir, ← oldest_iff pairwise_sorted]
  have hperm := @perm_kept keep dir now maxFiles maxAge maxBytes hdir
  constructor
  · intro h
    refine ⟨fun gone hgone ledger hledger => ?_, h.bytes⟩
    obtain ⟨hmem, hnot⟩ := (gone_iff hdir).mpr hgone
    exact h.oldest gone hmem hnot ledger (hperm.mem_iff.mpr hledger)
  · rintro ⟨holdest, hbytes⟩
    refine ⟨keeps_kept, fun ledger hledger => kept_young ledger (hperm.mem_iff.mp hledger), ?_, hbytes, ?_⟩
    · have := @files_kept ⟨cutoff now maxAge, maxFiles, maxBytes⟩ (start keep dir) (sorted keep dir)
      rw [hperm.length_eq, Nat.add_comm]
      exact this
    · intro gone hmem hnot ledger hledger
      exact holdest gone ((gone_iff hdir).mp ⟨hmem, hnot⟩) ledger (hperm.mem_iff.mp hledger)

theorem prune_iff_for_two_ledgers :
    Pruned 100 "a.calls.jsonl".toList 4 10 1000
        [⟨"a.calls.jsonl".toList, true, some 100, 1⟩, ⟨"b.calls.jsonl".toList, true, some 50, 5⟩]
        (pruneLedgersWithLimits 100 "a.calls.jsonl".toList 4 10 1000
          [⟨"a.calls.jsonl".toList, true, some 100, 1⟩, ⟨"b.calls.jsonl".toList, true, some 50, 5⟩]).1 ↔
      NothingOlderFits ⟨cutoff 100 1000, 4, 10⟩
          (start "a.calls.jsonl".toList [⟨"a.calls.jsonl".toList, true, some 100, 1⟩, ⟨"b.calls.jsonl".toList, true, some 50, 5⟩])
          (sorted "a.calls.jsonl".toList [⟨"a.calls.jsonl".toList, true, some 100, 1⟩, ⟨"b.calls.jsonl".toList, true, some 50, 5⟩]) ∧
        (UInt64.toNat 10 < U64_MAX ∨
          (keptBytes "a.calls.jsonl".toList
              [⟨"a.calls.jsonl".toList, true, some 100, 1⟩, ⟨"b.calls.jsonl".toList, true, some 50, 5⟩]).toNat +
            newestBytes ⟨cutoff 100 1000, 4, 10⟩
              (sorted "a.calls.jsonl".toList
                [⟨"a.calls.jsonl".toList, true, some 100, 1⟩, ⟨"b.calls.jsonl".toList, true, some 50, 5⟩]) ≤ U64_MAX) :=
  prune_iff (by decide)

/-- The newest ledger does not fit beside the active one; an older one does, and stays. -/
theorem newer_ledger_deleted :
    ¬Pruned 100 "a.calls.jsonl".toList 4 10 1000
      [⟨"a.calls.jsonl".toList, true, some 100, 1⟩, ⟨"b.calls.jsonl".toList, true, some 50, 20⟩,
        ⟨"c.calls.jsonl".toList, true, some 40, 5⟩]
      (pruneLedgersWithLimits 100 "a.calls.jsonl".toList 4 10 1000
        [⟨"a.calls.jsonl".toList, true, some 100, 1⟩, ⟨"b.calls.jsonl".toList, true, some 50, 20⟩,
          ⟨"c.calls.jsonl".toList, true, some 40, 5⟩]).1 := by
  intro h
  have := h.oldest ⟨50, 20, "b.calls.jsonl".toList⟩ (by decide) (by decide) ⟨40, 5, "c.calls.jsonl".toList⟩ (by decide)
  exact absurd this (by decide)

end Directory

end LedgerPrune
end Graph
end CodeSage
