import CodeSage.Storage.Migrations
import Mathlib.Data.List.Nodup
import Mathlib.Data.List.Infix

/-!
# CodeSage.Storage.MigrationsCorrect

What openers of an index leave, however their statements interleave and whichever fail: the index is the replay of what was
committed, every migration runs at most once, in the order of the list, and an older program keeps off what a newer one migrated.
-/

namespace CodeSage
namespace Storage
namespace Migrations

open Lib

variable {σ : Type}

section Advancing

variable {bin : Binary σ} {who : Nat} {sh sh' : Shared σ} {pc pc' : Pc σ}

/-- What an opener has established about the index it works on. -/
def Pc.Fact (bin : Binary σ) (db : Database σ) : Pc σ → Prop
  | .commitRebuild (some content) => migratedByNewerBinary bin db = false ∧ bin.rebuild db.content = some content
  | .body m _ => m.name ∉ db.names
  | .commitTx m _ names content => m.name ∉ db.names ∧ names = db.names ++ [m.name] ∧ m.up db.content = some content
  | .forget names => ∀ name ∈ names, name ∈ bin.superseded
  | _ => True

/-- The migrations an opener has still to look at. -/
def Pc.rest (bin : Binary σ) : Pc σ → List (Migration σ)
  | .probe rest => rest
  | .beginTx m rest | .reprobe m rest | .body m rest | .commitTx m rest _ _ => m :: rest
  | .forget _ | .check | .opened => []
  | _ => bin.migrations

/-- What an opener may commit where it is. -/
def Event.Allowed (bin : Binary σ) (db : Database σ) (pc : Pc σ) : Event σ → Prop
  | .rebuilt => migratedByNewerBinary bin db = false
  | .created _ => True
  | .registered => db.registry = none
  | .migrated m => (∃ rest, pc.rest bin = m :: rest) ∧ m.name ∉ db.names
  | .forgot name => name ∈ bin.superseded

/-- What a statement commits, if anything. -/
inductive Commits (bin : Binary σ) (who : Nat) (sh sh' : Shared σ) (pc : Pc σ) : Prop where
  | nothing (db : sh'.db = sh.db) (log : sh'.log = sh.log)
  | event (event : Event σ) (free : pc.locked = true ∨ sh.lock = none) (log : sh'.log = sh.log ++ [(who, event)])
    (apply : event.apply bin sh.db = some sh'.db) (allowed : event.Allowed bin sh.db pc)

/-- What a statement of an opener does. -/
structure Advances (bin : Binary σ) (who : Nat) (sh sh' : Shared σ) (pc pc' : Pc σ) : Prop where
  commits : Commits bin who sh sh' pc
  locks : sh'.lock = if pc'.locked then some who else if pc.locked then none else sh.lock
  takes : pc'.locked = true → pc.locked = false → sh.lock = none
  fact : pc'.Fact bin sh'.db
  rest : pc'.rest bin = bin.migrations ∨ pc'.rest bin = pc.rest bin ∨ ∃ m, pc.rest bin = m :: pc'.rest bin ∧ m.name ∈ sh'.db.names

theorem Advances.goes (hpc : pc.locked = false) (hpc' : pc'.locked = false) (hfact : pc'.Fact bin sh.db)
    (hrest : pc'.rest bin = bin.migrations ∨ pc'.rest bin = pc.rest bin ∨ ∃ m, pc.rest bin = m :: pc'.rest bin ∧ m.name ∈ sh.db.names) :
    Advances bin who sh sh pc pc' := ⟨.nothing rfl rfl, by simp [hpc, hpc'], by simp [hpc'], hfact, hrest⟩

theorem Advances.takesLock (hpc' : pc'.locked = true) (hfree : sh.lock.isNone = true) (hfact : pc'.Fact bin sh.db)
    (hrest : pc'.rest bin = bin.migrations ∨ pc'.rest bin = pc.rest bin) :
    Advances bin who sh { sh with lock := some who } pc pc' :=
  ⟨.nothing rfl rfl, by simp [hpc'], fun _ _ => Option.isNone_iff_eq_none.mp hfree, hfact, hrest.imp_right Or.inl⟩

theorem Advances.keepsLock (hpc : pc.locked = true) (hpc' : pc'.locked = true) (hlock : pc.locked = true → sh.lock = some who)
    (hfact : pc'.Fact bin sh.db) (hrest : pc'.rest bin = bin.migrations ∨ pc'.rest bin = pc.rest bin) : Advances bin who sh sh pc pc' :=
  ⟨.nothing rfl rfl, by simp [hpc', hlock hpc], by simp [hpc], hfact, hrest.imp_right Or.inl⟩

theorem Advances.releases (hpc : pc.locked = true) (hpc' : pc'.locked = false) (hfact : pc'.Fact bin sh.db)
    (hrest : pc'.rest bin = bin.migrations ∨ pc'.rest bin = pc.rest bin ∨ ∃ m, pc.rest bin = m :: pc'.rest bin ∧ m.name ∈ sh.db.names) :
    Advances bin who sh sh.release pc pc' := ⟨.nothing rfl rfl, by simp [hpc, hpc', Shared.release], by simp [hpc], hfact, hrest⟩

theorem Advances.commit {event : Event σ} {db : Database σ} (hfree : pc.locked = true ∨ sh.lock = none) (hpc' : pc'.locked = false)
    (happly : event.apply bin sh.db = some db) (hallowed : event.Allowed bin sh.db pc) (hfact : pc'.Fact bin db)
    (hrest : pc'.rest bin = bin.migrations ∨ pc'.rest bin = pc.rest bin ∨ ∃ m, pc.rest bin = m :: pc'.rest bin ∧ m.name ∈ db.names) :
    Advances bin who sh (sh.commit who event db) pc pc' where
  commits := .event event hfree rfl happly hallowed
  locks := by
    rw [hpc', if_neg Bool.false_ne_true, Shared.commit]
    split
    · rfl
    · rename_i hnot
      exact (hfree.resolve_left hnot).symm
  takes := by simp [hpc']
  fact := hfact
  rest := hrest

theorem names_eq_of_registry {db : Database σ} {names : List Text} (h : db.registry = some names) : db.names = names := by
  rw [Database.names, h, Option.getD_some]

variable [DecidableEq σ]

theorem advances (h : advance bin who sh pc = some (sh', pc')) (hfact : pc.Fact bin sh.db) (hlock : pc.locked = true → sh.lock = some who) :
    Advances bin who sh sh' pc pc' := by
  cases pc with
  | refuse | probeNewer | probeShape =>
    simp only [advance, Option.some.injEq, Prod.mk.injEq] at h
    obtain ⟨rfl, rfl⟩ := h
    split <;> exact .goes rfl rfl trivial (Or.inl rfl)
  | beginRebuild =>
    simp only [advance] at h
    split at h
    · cases h
      exact .takesLock rfl ‹_› trivial (Or.inl rfl)
    · cases h
  | recheck =>
    simp only [advance] at h
    split at h
    · cases h
      exact .keepsLock rfl rfl hlock trivial (Or.inl rfl)
    · rename_i hcheck
      simp only [Bool.or_eq_true, not_or, Bool.not_eq_true] at hcheck
      split at h
      · rename_i content hrebuild
        cases h
        exact .keepsLock rfl rfl hlock ⟨hcheck.1, hrebuild⟩ (Or.inl rfl)
      · cases h
        exact .releases rfl rfl trivial (Or.inl rfl)
  | commitRebuild content =>
    cases content with
    | none =>
      cases h
      exact .releases rfl rfl trivial (Or.inl rfl)
    | some content =>
      cases h
      exact .commit (Or.inl rfl) rfl (by rw [Event.apply, hfact.2]; rfl) hfact.1 trivial (Or.inl rfl)
  | schema stmts =>
    cases stmts with
    | nil =>
      cases h
      exact .goes rfl rfl trivial (Or.inl rfl)
    | cons stmt stmts =>
      simp only [advance] at h
      split at h
      · cases h
        exact .goes rfl rfl trivial (Or.inl rfl)
      · rename_i content hstmt
        split at h
        · cases h
          exact .goes rfl rfl trivial (Or.inl rfl)
        · split at h
          · rename_i hfree
            cases h
            refine .commit (Or.inr (Option.isNone_iff_eq_none.mp hfree)) rfl ?_ trivial trivial (Or.inl rfl)
            rw [Event.apply, hstmt]
            rfl
          · cases h
  | registry =>
    simp only [advance] at h
    split at h
    · cases h
      exact .goes rfl rfl trivial (Or.inl rfl)
    · rename_i hnone
      split at h
      · rename_i hfree
        cases h
        refine .commit (Or.inr (Option.isNone_iff_eq_none.mp hfree)) rfl rfl ?_ trivial (Or.inl rfl)
        exact Option.not_isSome_iff_eq_none.mp hnone
      · cases h
  | probe rest =>
    cases rest with
    | nil =>
      cases h
      exact .goes rfl rfl (fun _ hmem => hmem) (Or.inr (Or.inl rfl))
    | cons m rest =>
      simp only [advance] at h
      split at h
      · cases h
        exact .goes rfl rfl trivial (Or.inl rfl)
      · rename_i names hnames
        simp only [Option.some.injEq, Prod.mk.injEq] at h
        obtain ⟨rfl, rfl⟩ := h
        split
        · rename_i hmem
          exact .goes rfl rfl trivial (Or.inr (Or.inr ⟨m, rfl, by rwa [names_eq_of_registry hnames]⟩))
        · exact .goes rfl rfl trivial (Or.inr (Or.inl rfl))
  | beginTx m rest =>
    simp only [advance] at h
    split at h
    · cases h
      exact .takesLock rfl ‹_› trivial (Or.inr rfl)
    · cases h
  | reprobe m rest =>
    simp only [advance] at h
    split at h
    · cases h
      exact .releases rfl rfl trivial (Or.inl rfl)
    · rename_i names hnames
      have heq := names_eq_of_registry hnames
      split at h
      · cases h
        exact .releases rfl rfl trivial (Or.inr (Or.inr ⟨m, rfl, by rwa [heq]⟩))
      · cases h
        exact .keepsLock rfl rfl hlock (by rwa [Pc.Fact, heq]) (Or.inr rfl)
  | body m rest =>
    simp only [advance] at h
    split at h
    · cases h
      exact .releases rfl rfl trivial (Or.inl rfl)
    · rename_i content hup
      cases h
      exact .keepsLock rfl rfl hlock ⟨hfact, by rw [if_neg hfact], hup⟩ (Or.inr rfl)
  | commitTx m rest names content =>
    obtain ⟨hfresh, rfl, hup⟩ := hfact
    cases h
    refine .commit (Or.inl rfl) rfl ?_ ⟨⟨rest, rfl⟩, hfresh⟩ trivial (Or.inr (Or.inr ⟨m, rfl, ?_⟩))
    · rw [Event.apply, hup]
      rfl
    · simp [Database.names]
  | forget names =>
    cases names with
    | nil =>
      cases h
      exact .goes rfl rfl trivial (Or.inr (Or.inl rfl))
    | cons name names =>
      simp only [advance] at h
      split at h
      · rename_i hfree
        cases h
        refine .commit (Or.inr (Option.isNone_iff_eq_none.mp hfree)) rfl rfl (hfact name List.mem_cons_self) ?_ (Or.inr (Or.inl rfl))
        exact fun other hmem => hfact other (List.mem_cons_of_mem _ hmem)
      · cases h
  | check =>
    simp only [advance, Option.some.injEq, Prod.mk.injEq] at h
    obtain ⟨rfl, rfl⟩ := h
    split
    · exact .goes rfl rfl trivial (Or.inl rfl)
    · exact .goes rfl rfl trivial (Or.inr (Or.inl rfl))
  | opened | failed => cases h

end Advancing

section Runs

variable {bins : Nat → Binary σ} {db₀ : Database σ} {s s' : State σ}

/-- One opener holds the lock, what each has established still holds, and the index is the replay of what was committed. -/
structure Valid (bins : Nat → Binary σ) (db₀ : Database σ) (s : State σ) : Prop where
  lock : ∀ i, (s.pcs i).locked = true → s.shared.lock = some i
  fact : ∀ i, (s.pcs i).Fact (bins i) s.shared.db
  log : replay bins db₀ s.shared.log = some s.shared.db

/-- Without the lock nothing is established but what is known of the program. -/
theorem Pc.Fact.unlocked {bin : Binary σ} {db db' : Database σ} {pc : Pc σ} (h : pc.Fact bin db) (hpc : pc.locked = false) :
    pc.Fact bin db' := by
  cases pc with
  | commitRebuild content | body m rest | commitTx m rest names content => cases hpc
  | forget names => exact h
  | _ => trivial

theorem replay_concat (log : List (Nat × Event σ)) (entry : Nat × Event σ) :
    replay bins db₀ (log ++ [entry]) = (replay bins db₀ log).bind fun db => entry.2.apply (bins entry.1) db := by
  rw [replay, replay, List.foldlM_append]
  cases log.foldlM (fun db entry => entry.2.apply (bins entry.1) db) db₀ <;> simp

theorem Valid.start (db₀ : Database σ) : Valid bins db₀ (start db₀) := ⟨by simp [Migrations.start, Pc.locked], fun _ => trivial, rfl⟩

theorem Valid.failed {who : Nat} (h : Valid bins db₀ s)
    (hshared : s'.shared = if (s.pcs who).locked then s.shared.release else s.shared)
    (hpcs : s'.pcs = Function.update s.pcs who .failed) : Valid bins db₀ s' := by
  have hdb : s'.shared.db = s.shared.db := by rw [hshared]; split <;> rfl
  have hlog : s'.shared.log = s.shared.log := by rw [hshared]; split <;> rfl
  refine ⟨fun i hi => ?_, fun i => ?_, by rw [hlog, hdb, h.log]⟩
  · rw [hpcs] at hi
    by_cases hwho : i = who
    · subst hwho
      rw [Function.update_self] at hi
      cases hi
    · rw [Function.update_of_ne hwho] at hi
      rw [hshared]
      split
      · rename_i hlocked
        have hsame := (h.lock i hi).symm.trans (h.lock who hlocked)
        exact absurd (Option.some.inj hsame) hwho
      · exact h.lock i hi
  · rw [hpcs, hdb]
    by_cases hwho : i = who
    · subst hwho
      rw [Function.update_self]
      trivial
    · rw [Function.update_of_ne hwho]
      exact h.fact i

theorem Valid.advances {who : Nat} {pc : Pc σ} (h : Valid bins db₀ s)
    (hadvances : Advances (bins who) who s.shared s'.shared (s.pcs who) pc) (hpcs : s'.pcs = Function.update s.pcs who pc) :
    Valid bins db₀ s' := by
  obtain ⟨hcommits, hlocks, htakes, hfact, -⟩ := hadvances
  have hother : ∀ i, i ≠ who → (s.pcs i).locked = true → (s.pcs who).locked = false ∧ s.shared.lock ≠ none := by
    intro i hwho hi
    have hlock := h.lock i hi
    refine ⟨?_, by simp [hlock]⟩
    cases hlocked : (s.pcs who).locked with
    | false => rfl
    | true =>
      rw [h.lock who hlocked] at hlock
      exact absurd (Option.some.inj hlock).symm hwho
  refine ⟨fun i hi => ?_, fun i => ?_, ?_⟩
  · rw [hpcs] at hi
    by_cases hwho : i = who
    · subst hwho
      rw [Function.update_self] at hi
      rw [hlocks, hi, if_pos rfl]
    · rw [Function.update_of_ne hwho] at hi
      obtain ⟨hnot, hheld⟩ := hother i hwho hi
      rw [hlocks, hnot, if_neg Bool.false_ne_true]
      split
      · rename_i hlocked
        exact absurd (htakes hlocked hnot) hheld
      · exact h.lock i hi
  · rw [hpcs]
    by_cases hwho : i = who
    · subst hwho
      rw [Function.update_self]
      exact hfact
    · rw [Function.update_of_ne hwho]
      cases hcommits with
      | nothing db log =>
        rw [db]
        exact h.fact i
      | event event free log apply allowed =>
        refine (h.fact i).unlocked (Bool.eq_false_iff.mpr fun hi => ?_)
        obtain ⟨hnot, hheld⟩ := hother i hwho hi
        rcases free with hlocked | hfree
        · rw [hlocked] at hnot
          cases hnot
        · exact hheld hfree
  · cases hcommits with
    | nothing db log => rw [log, db, h.log]
    | event event free log apply allowed =>
      rw [log, replay_concat, h.log]
      exact apply

variable [DecidableEq σ]

/-- What a step is: the failure of an opener, or a statement of it. -/
theorem step_cases {who : Nat} {fails : Bool} (h : step bins s (who, fails) = .next s') :
    (s'.shared = (if (s.pcs who).locked then s.shared.release else s.shared) ∧ s'.pcs = Function.update s.pcs who .failed) ∨
      ∃ pc, advance (bins who) who s.shared (s.pcs who) = some (s'.shared, pc) ∧ s'.pcs = Function.update s.pcs who pc := by
  simp only [step] at h
  split at h
  · split at h
    · cases h
    · cases h
      exact Or.inl ⟨rfl, rfl⟩
  · split at h
    · rename_i shared pc hadvance
      cases h
      exact Or.inr ⟨pc, hadvance, rfl⟩
    · cases h

theorem Valid.step {label : Nat × Bool} (h : Valid bins db₀ s) (hstep : step bins s label = .next s') : Valid bins db₀ s' := by
  obtain ⟨who, fails⟩ := label
  rcases step_cases hstep with ⟨hshared, hpcs⟩ | ⟨pc, hadvance, hpcs⟩
  · exact h.failed hshared hpcs
  · exact h.advances (Migrations.advances hadvance (h.fact who) (h.lock who)) hpcs

end Runs

section Order

/-- The programs are versions of one, each with the first of its migrations; what they supersede is none of these. -/
structure Lineage (bins : Nat → Binary σ) (all : List (Migration σ)) : Prop where
  versions : ∀ i, (bins i).migrations <+: all
  distinct : (all.map Migration.name).Nodup
  superseded : ∀ i, ∀ name ∈ (bins i).superseded, name ∉ all.map Migration.name

/-- The migrations of the list that are stamped, in the order of the stamps. -/
def stamped (all : List (Migration σ)) (db : Database σ) : List Text := db.names.filter fun name => name ∈ all.map Migration.name

def migratedOf : Nat × Event σ → Option (Migration σ)
  | (_, .migrated m) => some m
  | _ => none

/-- The bodies that were run, in order. -/
def bodies (log : List (Nat × Event σ)) : List (Migration σ) := log.filterMap migratedOf

/-- So many migrations of the list are stamped, those behind the first `k₀` were run once each and in order, and every opener
has found stamped what is in front of where it is. -/
structure Progress (bins : Nat → Binary σ) (all : List (Migration σ)) (k₀ k : Nat) (s : State σ) : Prop where
  from_ : k₀ ≤ k
  upto : k ≤ all.length
  stamps : stamped all s.shared.db = (all.take k).map Migration.name
  ran : bodies s.shared.log = (all.take k).drop k₀
  openers : ∀ i, ∃ n, (s.pcs i).rest (bins i) = (bins i).migrations.drop n ∧ n ≤ (bins i).migrations.length ∧ n ≤ k

variable {bins : Nat → Binary σ} {all : List (Migration σ)} {db db' : Database σ} {k₀ k n : Nat} {s s' : State σ} {m : Migration σ}

theorem mem_take_names (h : (all.map Migration.name).Nodup) (hm : all[n]? = some m) : m.name ∈ (all.take k).map Migration.name ↔ n < k := by
  constructor
  · intro hmem
    obtain ⟨other, hother, hname⟩ := List.mem_map.mp hmem
    obtain ⟨i, hi, rfl⟩ := List.mem_iff_getElem.mp hother
    rw [List.length_take] at hi
    have hi' : i < all.length := by omega
    rw [List.getElem_take] at hname
    have hsame : (all.map Migration.name)[i]? = (all.map Migration.name)[n]? := by
      rw [List.getElem?_map, List.getElem?_map, hm, List.getElem?_eq_getElem hi', Option.map_some, Option.map_some, hname]
    have := (List.getElem?_inj (by rwa [List.length_map]) h).mp hsame
    omega
  · intro hlt
    refine List.mem_map_of_mem (List.mem_iff_getElem?.mpr ⟨n, ?_⟩)
    rw [List.getElem?_take_of_lt hlt, hm]

/-- A migration of the list is stamped when it is one of the first. -/
theorem mem_names_iff (h : (all.map Migration.name).Nodup) (hstamps : stamped all db = (all.take k).map Migration.name)
    (hm : all[n]? = some m) : m.name ∈ db.names ↔ n < k := by
  have hin : m.name ∈ all.map Migration.name := List.mem_map_of_mem (List.mem_of_getElem? hm)
  rw [← mem_take_names h hm, ← hstamps, stamped, List.mem_filter]
  simp [hin]

theorem getElem?_of_rest {bin : Binary σ} {rest : List (Migration σ)} (hversion : bin.migrations <+: all)
    (h : bin.migrations.drop n = m :: rest) : all[n]? = some m ∧ bin.migrations.drop (n + 1) = rest ∧ n < bin.migrations.length := by
  have hm : bin.migrations[n]? = some m := by
    rw [← List.head?_drop, h]
    rfl
  have hlt := (List.getElem?_eq_some_iff.mp hm).1
  refine ⟨?_, ?_, hlt⟩
  · obtain ⟨more, rfl⟩ := hversion
    rw [List.getElem?_append_left hlt, hm]
  · rw [← List.tail_drop, h, List.tail_cons]

/-- Only a migration changes what is stamped of the list. -/
theorem stamped_apply {bin : Binary σ} {event : Event σ} {pc : Pc σ} (happly : event.apply bin db = some db')
    (hallowed : event.Allowed bin db pc) (hsuperseded : ∀ name ∈ bin.superseded, name ∉ all.map Migration.name)
    (hnot : ∀ m, event ≠ .migrated m) : stamped all db' = stamped all db := by
  cases event with
  | rebuilt | created stmt =>
    obtain ⟨content, -, rfl⟩ := Option.map_eq_some_iff.mp happly
    rfl
  | registered =>
    cases happly
    rw [stamped, stamped, Database.names, Database.names, hallowed]
    rfl
  | migrated m => exact absurd rfl (hnot m)
  | forgot name =>
    cases happly
    have hname := hsuperseded name hallowed
    rw [stamped, stamped, Database.names, Database.names]
    cases db.registry with
    | none => rfl
    | some names =>
      rw [Option.map_some, Option.getD_some, Option.getD_some, List.filter_filter]
      refine List.filter_congr fun other _ => ?_
      by_cases hother : other ∈ all.map Migration.name
      · have hne : other ≠ name := fun heq => hname (heq ▸ hother)
        simp [hother, hne]
      · simp [hother]

theorem stamped_migrated {bin : Binary σ} (happly : (Event.migrated m).apply bin db = some db')
    (hmem : m.name ∈ all.map Migration.name) : stamped all db' = stamped all db ++ [m.name] := by
  obtain ⟨content, -, rfl⟩ := Option.map_eq_some_iff.mp happly
  have hlast : [m.name].filter (fun name => decide (name ∈ all.map Migration.name)) = [m.name] := by
    rw [List.filter_cons_of_pos (by simpa using hmem), List.filter_nil]
  rw [stamped, stamped, Database.names, Option.getD_some, List.filter_append, hlast]

theorem bodies_concat (log : List (Nat × Event σ)) (entry : Nat × Event σ) :
    bodies (log ++ [entry]) = bodies log ++ (migratedOf entry).toList := by
  rw [bodies, bodies, List.filterMap_append]
  cases h : migratedOf entry <;> simp [h]

theorem Progress.start (hle : k₀ ≤ all.length) (h : stamped all db = (all.take k₀).map Migration.name) :
    Progress bins all k₀ k₀ (start db) where
  from_ := Nat.le_refl _
  upto := hle
  stamps := h
  ran := by simp [Migrations.start, bodies]
  openers := fun i => ⟨0, rfl, Nat.zero_le _, Nat.zero_le _⟩

/-- Where the other openers are does not change. -/
theorem Progress.openers_update {k' who : Nat} {pc : Pc σ} (h : Progress bins all k₀ k s) (hle : k ≤ k')
    (hpc : ∃ n, pc.rest (bins who) = (bins who).migrations.drop n ∧ n ≤ (bins who).migrations.length ∧ n ≤ k') :
    ∀ i, ∃ n, (Function.update s.pcs who pc i).rest (bins i) = (bins i).migrations.drop n ∧ n ≤ (bins i).migrations.length ∧ n ≤ k' := by
  intro i
  by_cases hwho : i = who
  · subst hwho
    rwa [Function.update_self]
  · rw [Function.update_of_ne hwho]
    obtain ⟨n, hrest, hn, hk⟩ := h.openers i
    exact ⟨n, hrest, hn, hk.trans hle⟩

theorem Progress.failed {who : Nat} (h : Progress bins all k₀ k s)
    (hshared : s'.shared = if (s.pcs who).locked then s.shared.release else s.shared)
    (hpcs : s'.pcs = Function.update s.pcs who .failed) : Progress bins all k₀ k s' where
  from_ := h.from_
  upto := h.upto
  stamps := by rw [hshared]; split <;> exact h.stamps
  ran := by rw [hshared]; split <;> exact h.ran
  openers := by
    rw [hpcs]
    exact h.openers_update (Nat.le_refl k) ⟨0, rfl, Nat.zero_le _, Nat.zero_le _⟩

theorem Progress.opener {bin : Binary σ} {who : Nat} {pc pc' : Pc σ} {sh : Shared σ} {k' : Nat} (hlineage : bin.migrations <+: all)
    (hdistinct : (all.map Migration.name).Nodup) (hstamps : stamped all s'.shared.db = (all.take k').map Migration.name) (hle : k ≤ k')
    (hadvances : Advances bin who sh s'.shared pc pc')
    (hpc : ∃ n, pc.rest bin = bin.migrations.drop n ∧ n ≤ bin.migrations.length ∧ n ≤ k) :
    ∃ n, pc'.rest bin = bin.migrations.drop n ∧ n ≤ bin.migrations.length ∧ n ≤ k' := by
  obtain ⟨n, hrest, hn, hk⟩ := hpc
  rcases hadvances.rest with hall | hsame | ⟨m, hcons, hmem⟩
  · exact ⟨0, hall, Nat.zero_le _, Nat.zero_le _⟩
  · exact ⟨n, hsame.trans hrest, hn, hk.trans hle⟩
  · obtain ⟨hm, hdrop, hlt⟩ := getElem?_of_rest hlineage (hrest.symm.trans hcons)
    exact ⟨n + 1, hdrop.symm, hlt, (mem_names_iff hdistinct hstamps hm).mp hmem⟩

/-- The migration that is run is the first one not stamped. -/
theorem Progress.next {who : Nat} (hlineage : Lineage bins all) (h : Progress bins all k₀ k s) {pc : Pc σ} (hpc : s.pcs who = pc)
    (hallowed : (Event.migrated m).Allowed (bins who) s.shared.db pc) : all[k]? = some m ∧ k < (bins who).migrations.length := by
  obtain ⟨⟨rest, hrest⟩, hfresh⟩ := hallowed
  obtain ⟨n, hdrop, hn, hk⟩ := h.openers who
  rw [hpc] at hdrop
  obtain ⟨hm, -, hlt⟩ := getElem?_of_rest (hlineage.versions who) (hdrop.symm.trans hrest)
  have hnot := (mem_names_iff hlineage.distinct h.stamps hm).not.mp hfresh
  obtain rfl : n = k := by omega
  exact ⟨hm, hlt⟩

theorem Progress.advances {who : Nat} {pc : Pc σ} (hlineage : Lineage bins all) (h : Progress bins all k₀ k s)
    (hadvances : Advances (bins who) who s.shared s'.shared (s.pcs who) pc) (hpcs : s'.pcs = Function.update s.pcs who pc) :
    ∃ k', k ≤ k' ∧ Progress bins all k₀ k' s' := by
  have hopener := fun k' hstamps hle => @Progress.opener _ all k s' (bins who) who (s.pcs who) pc s.shared k' (hlineage.versions who)
    hlineage.distinct hstamps hle hadvances (h.openers who)
  cases hadvances.commits with
  | nothing hdb hlog =>
    have hstamps : stamped all s'.shared.db = (all.take k).map Migration.name := by rw [hdb, h.stamps]
    refine ⟨k, Nat.le_refl k, h.from_, h.upto, hstamps, by rw [hlog, h.ran], ?_⟩
    rw [hpcs]
    exact h.openers_update (Nat.le_refl k) (hopener k hstamps (Nat.le_refl k))
  | event event free hlog happly hallowed =>
    by_cases hmigrated : ∃ m, event = .migrated m
    · obtain ⟨m, rfl⟩ := hmigrated
      obtain ⟨hm, -⟩ := h.next hlineage rfl hallowed
      have hk : k < all.length := (List.getElem?_eq_some_iff.mp hm).1
      have htake : all.take (k + 1) = all.take k ++ [m] := by rw [List.take_add_one, hm, Option.toList_some]
      have hstamps : stamped all s'.shared.db = (all.take (k + 1)).map Migration.name := by
        rw [stamped_migrated happly (List.mem_map_of_mem (List.mem_of_getElem? hm)), h.stamps, htake, List.map_append, List.map_singleton]
      refine ⟨k + 1, Nat.le_succ k, h.from_.trans (Nat.le_succ k), hk, hstamps, ?_, ?_⟩
      · rw [hlog, bodies_concat, h.ran, htake, List.drop_append_of_le_length]
        · rfl
        · rw [List.length_take]
          have := h.from_
          omega
      · rw [hpcs]
        exact h.openers_update (Nat.le_succ k) (hopener (k + 1) hstamps (Nat.le_succ k))
    · have hnot : ∀ m, event ≠ .migrated m := fun m heq => hmigrated ⟨m, heq⟩
      have hstamps : stamped all s'.shared.db = (all.take k).map Migration.name := by
        rw [stamped_apply happly hallowed (hlineage.superseded who) hnot, h.stamps]
      refine ⟨k, Nat.le_refl k, h.from_, h.upto, hstamps, ?_, ?_⟩
      · have hnone : migratedOf (who, event) = none := by
          cases event with
          | migrated m => exact absurd rfl (hnot m)
          | _ => rfl
        rw [hlog, bodies_concat, hnone, Option.toList_none, List.append_nil, h.ran]
      · rw [hpcs]
        exact h.openers_update (Nat.le_refl k) (hopener k hstamps (Nat.le_refl k))

variable [DecidableEq σ]

theorem Progress.step {label : Nat × Bool} {db₀ : Database σ} (hlineage : Lineage bins all) (hvalid : Valid bins db₀ s)
    (h : Progress bins all k₀ k s) (hstep : step bins s label = .next s') : ∃ k', k ≤ k' ∧ Progress bins all k₀ k' s' := by
  obtain ⟨who, fails⟩ := label
  rcases step_cases hstep with ⟨hshared, hpcs⟩ | ⟨pc, hadvance, hpcs⟩
  · exact ⟨k, Nat.le_refl k, h.failed hshared hpcs⟩
  · exact h.advances hlineage (Migrations.advances hadvance (hvalid.fact who) (hvalid.lock who)) hpcs

end Order

section Results

variable {bins : Nat → Binary σ} {all : List (Migration σ)} {db : Database σ} {k₀ : Nat} {s s' : State σ}
  {m : Migration σ}

theorem unknown_of_stamped (hlineage : Lineage bins all) {who : Nat} (hm : m ∈ all) (hnew : m ∉ (bins who).migrations)
    (hstamped : m.name ∈ db.names) : m.name ∈ unknownMigrations (bins who) db := by
  refine List.mem_filter.mpr ⟨hstamped, ?_⟩
  have hnot : m.name ∉ (bins who).superseded := fun hmem => hlineage.superseded who _ hmem (List.mem_map_of_mem hm)
  have hany : ((bins who).migrations.any fun other => other.name == m.name) = false := by
    rw [List.any_eq_false]
    intro other hother heq
    have hsame := List.inj_on_of_nodup_map hlineage.distinct ((hlineage.versions who).subset hother) hm (beq_iff_eq.mp heq)
    exact hnew (hsame ▸ hother)
  rw [knows, hany, Bool.false_or, Bool.not_eq_true', List.contains_eq_mem]
  exact decide_eq_false hnot

/-- What an older program does not do once a newer one's migration is stamped. -/
def KeepsOff (who : Nat) (entry : Nat × Event σ) : Prop := entry.1 = who → entry.2 ≠ .rebuilt ∧ ∀ m, entry.2 ≠ .migrated m

theorem keepsOff_of_commits (hlineage : Lineage bins all) {k who i : Nat} (hprogress : Progress bins all k₀ k s) {event : Event σ}
    (hm : m ∈ all) (hnew : m ∉ (bins who).migrations) (hstamped : m.name ∈ s.shared.db.names)
    (hallowed : event.Allowed (bins i) s.shared.db (s.pcs i)) : KeepsOff who (i, event) := by
  rintro rfl
  have hunknown := unknown_of_stamped hlineage hm hnew hstamped
  constructor
  · rintro rfl
    have hempty : unknownMigrations (bins i) s.shared.db = [] := by simpa [Event.Allowed, migratedByNewerBinary] using hallowed
    rw [hempty] at hunknown
    cases hunknown
  · rintro other rfl
    -- the migration to run would be one this program knows, but what it does not know is behind
    obtain ⟨-, hlt⟩ := hprogress.next hlineage rfl hallowed
    obtain ⟨n, hn⟩ := List.mem_iff_getElem?.mp hm
    have hnk := (mem_names_iff hlineage.distinct hprogress.stamps hn).mp hstamped
    obtain ⟨more, hmore⟩ := hlineage.versions i
    rw [← hmore, List.getElem?_append_left (by omega)] at hn
    exact hnew (List.mem_of_getElem? hn)

theorem eq_opened {pc : Pc σ} (h : pc.isOpened = true) : pc = .opened := by
  cases pc with
  | opened => rfl
  | _ => cases h

variable [DecidableEq σ]

theorem valid_and_progress (hlineage : Lineage bins all) (hle : k₀ ≤ all.length) (hstart : stamped all db = (all.take k₀).map Migration.name)
    (hsteps : Steps (step bins) (start db) s) : Valid bins db s ∧ ∃ k, Progress bins all k₀ k s := by
  refine hsteps.invariant (P := fun s => Valid bins db s ∧ ∃ k, Progress bins all k₀ k s) ?_ ⟨.start db, k₀, .start hle hstart⟩
  rintro s label s' ⟨hvalid, k, hprogress⟩ hstep
  obtain ⟨k', -, hprogress'⟩ := hprogress.step hlineage hvalid hstep
  exact ⟨hvalid.step hstep, k', hprogress'⟩

/-- The index is the replay of the commits, and the migrations run are the next ones of the list, each once and in order. -/
theorem migrations_in_order (hlineage : Lineage bins all) (hle : k₀ ≤ all.length)
    (hstart : stamped all db = (all.take k₀).map Migration.name) (hsteps : Steps (step bins) (start db) s) :
    replay bins db s.shared.log = some s.shared.db ∧
      ∃ k, k₀ ≤ k ∧ stamped all s.shared.db = (all.take k).map Migration.name ∧ bodies s.shared.log = (all.take k).drop k₀ := by
  obtain ⟨hvalid, k, hprogress⟩ := valid_and_progress hlineage hle hstart hsteps
  exact ⟨hvalid.log, k, hprogress.from_, hprogress.stamps, hprogress.ran⟩

def nameTail : Migration Nat := ⟨"0001_refs_name_tail".toList, fun n => some (n + 1)⟩

def reshape : Migration Nat := ⟨"breaking_0002_reshape".toList, fun n => some (n * 2)⟩

def older : Binary Nat := { migrations := [nameTail], superseded := [], schema := [], malformed := fun _ => false, rebuild := some }

def newer : Binary Nat := { older with migrations := [nameTail, reshape] }

def versions (who : Nat) : Binary Nat := if who = 0 then older else newer

theorem lineage_versions : Lineage versions [nameTail, reshape] where
  versions := fun i => by
    rw [versions]
    split
    · exact ⟨[reshape], rfl⟩
    · exact ⟨[], rfl⟩
  distinct := by decide
  superseded := fun i => by
    rw [versions]
    split <;> simp [older, newer]

/-- The newer program opens an index that is new, and then the older one does not. -/
theorem steps_newer : ∃ s, Steps (step versions) (start ⟨none, 7⟩) s ∧ (s.pcs 1).isOpened = true ∧ reshape.name ∈ s.shared.db.names ∧
    ∃ s', step versions s (0, false) = .next s' ∧ (s'.pcs 0).ended = true := by
  obtain ⟨s, hsteps, htest⟩ := steps_of_run (step versions) (start ⟨none, 7⟩) (List.replicate 18 (1, false))
    (fun s => (s.pcs 1).isOpened && decide (reshape.name ∈ s.shared.db.names)
      && (step versions s (0, false)).test fun s' => (s'.pcs 0).ended) (by decide)
  simp only [Bool.and_eq_true, decide_eq_true_eq, Outcome.test_eq_true, and_assoc] at htest
  exact ⟨s, hsteps, htest⟩

theorem migrations_in_order_newer : ∃ (s : State Nat) (k : Nat), replay versions ⟨none, 7⟩ s.shared.log = some s.shared.db ∧
    stamped [nameTail, reshape] s.shared.db = ([nameTail, reshape].take k).map Migration.name ∧
    bodies s.shared.log = [nameTail, reshape].take k ∧ reshape.name ∈ s.shared.db.names := by
  obtain ⟨s, hsteps, -, hmem, -⟩ := steps_newer
  obtain ⟨hreplay, k, -, hstamped, hran⟩ := migrations_in_order lineage_versions (Nat.zero_le _) rfl hsteps
  exact ⟨s, k, hreplay, hstamped, hran, hmem⟩

/-- What holds of the index in one state holds of it later, of the migrations stamped. -/
theorem stamped_later (hlineage : Lineage bins all) (hle : k₀ ≤ all.length) (hstart : stamped all db = (all.take k₀).map Migration.name)
    (hsteps : Steps (step bins) (start db) s) (hlater : Steps (step bins) s s') (hm : m ∈ all)
    (hstamped : m.name ∈ s.shared.db.names) : m.name ∈ s'.shared.db.names := by
  obtain ⟨n, hn⟩ := List.mem_iff_getElem?.mp hm
  refine (hlater.invariant (P := fun s => (Valid bins db s ∧ ∃ k, Progress bins all k₀ k s) ∧ m.name ∈ s.shared.db.names) ?_
    ⟨valid_and_progress hlineage hle hstart hsteps, hstamped⟩).2
  rintro s label s' ⟨⟨hvalid, k, hprogress⟩, hmem⟩ hstep
  obtain ⟨k', hk, hprogress'⟩ := hprogress.step hlineage hvalid hstep
  refine ⟨⟨hvalid.step hstep, k', hprogress'⟩, (mem_names_iff hlineage.distinct hprogress'.stamps hn).mpr ?_⟩
  exact Nat.lt_of_lt_of_le ((mem_names_iff hlineage.distinct hprogress.stamps hn).mp hmem) hk

/-- Once an opener has opened the index, its migrations are stamped, and stay so. -/
theorem opened_current (hlineage : Lineage bins all) (hle : k₀ ≤ all.length)
    (hstart : stamped all db = (all.take k₀).map Migration.name) (hsteps : Steps (step bins) (start db) s) {who : Nat}
    (hopened : s.pcs who = .opened) (hlater : Steps (step bins) s s') :
    ∀ m ∈ (bins who).migrations, m.name ∈ s'.shared.db.names := by
  intro m hmem
  have hall : m ∈ all := (hlineage.versions who).subset hmem
  refine stamped_later hlineage hle hstart hsteps hlater hall ?_
  obtain ⟨-, k, hprogress⟩ := valid_and_progress hlineage hle hstart hsteps
  obtain ⟨i, hi⟩ := List.mem_iff_getElem?.mp hmem
  obtain ⟨more, hmore⟩ := hlineage.versions who
  have hlt := (List.getElem?_eq_some_iff.mp hi).1
  have hget : all[i]? = some m := by rw [← hmore, List.getElem?_append_left hlt, hi]
  refine (mem_names_iff hlineage.distinct hprogress.stamps hget).mpr ?_
  -- an opener that has opened the index has nothing left to look at
  obtain ⟨n, hrest, hn, hk⟩ := hprogress.openers who
  rw [hopened] at hrest
  have := List.drop_eq_nil_iff.mp hrest.symm
  omega

theorem opened_current_newer : ∃ s : State Nat, ∀ m ∈ (versions 1).migrations, m.name ∈ s.shared.db.names := by
  obtain ⟨s, hsteps, hopened, -⟩ := steps_newer
  refine ⟨s, opened_current lineage_versions (Nat.zero_le _) rfl hsteps (eq_opened hopened) .refl⟩

theorem opened_of_advance {bin : Binary σ} {who : Nat} {sh sh' : Shared σ} {pc : Pc σ} (h : advance bin who sh pc = some (sh', .opened)) :
    refuses bin sh.db = false := by
  cases pc with
  | check =>
    simp only [advance, Option.some.injEq, Prod.mk.injEq] at h
    cases hrefuses : refuses bin sh.db with
    | false => rfl
    | true => rw [hrefuses, if_pos rfl] at h; cases h.2
  | commitRebuild content => cases content <;> cases h
  | schema stmts =>
    cases stmts with
    | nil => cases h
    | cons stmt stmts =>
      simp only [advance] at h
      split at h
      · cases h
      · split at h
        · cases h
        · split at h <;> cases h
  | probe rest =>
    cases rest with
    | nil => cases h
    | cons m rest =>
      simp only [advance] at h
      split at h
      · cases h
      · simp only [Option.some.injEq, Prod.mk.injEq] at h
        split at h <;> cases h.2
  | forget names =>
    cases names with
    | nil => cases h
    | cons name names =>
      simp only [advance] at h
      split at h <;> cases h
  | refuse | probeNewer | probeShape =>
    simp only [advance, Option.some.injEq, Prod.mk.injEq] at h
    split at h <;> cases h.2
  | opened | failed | commitTx m rest names content => cases h
  | beginRebuild | registry | beginTx m rest =>
    simp only [advance] at h
    repeat (split at h; · cases h)
    cases h
  | recheck | reprobe m rest | body m rest =>
    simp only [advance] at h
    split at h
    · cases h
    · first
      | cases h
      | (split at h <;> cases h)

/-- Once a newer program's migration is stamped, an older one neither runs a migration nor rebuilds a table, and where that
migration is a breaking one, it does not open the index. -/
theorem older_keeps_off (hlineage : Lineage bins all) (hle : k₀ ≤ all.length)
    (hstart : stamped all db = (all.take k₀).map Migration.name) (hsteps : Steps (step bins) (start db) s) {who : Nat} (hm : m ∈ all)
    (hnew : m ∉ (bins who).migrations) (hstamped : m.name ∈ s.shared.db.names) (hlater : Steps (step bins) s s') :
    (∃ more, s'.shared.log = s.shared.log ++ more ∧ ∀ entry ∈ more, KeepsOff who entry) ∧
      (breakingPrefix.isPrefixOf m.name = true → s'.pcs who = .opened → s.pcs who = .opened) := by
  induction hlater with
  | refl => exact ⟨⟨[], by simp⟩, fun _ h => h⟩
  | @tail s₁ s₂ label hlater hstep ih =>
    obtain ⟨⟨more, hlog, hmore⟩, hopens⟩ := ih
    obtain ⟨hvalid, k, hprogress⟩ := valid_and_progress hlineage hle hstart (hsteps.trans hlater)
    have hmem := stamped_later hlineage hle hstart hsteps hlater hm hstamped
    obtain ⟨i, fails⟩ := label
    rcases step_cases hstep with ⟨hshared, hpcs⟩ | ⟨pc, hadvance, hpcs⟩
    · have hsame : s₂.shared.log = s₁.shared.log := by rw [hshared]; split <;> rfl
      refine ⟨⟨more, by rw [hsame, hlog], hmore⟩, fun hbreaking hopened => hopens hbreaking ?_⟩
      rw [hpcs] at hopened
      by_cases hwho : who = i
      · rw [hwho, Function.update_self] at hopened
        cases hopened
      · rwa [Function.update_of_ne hwho] at hopened
    · have hadvances := advances hadvance (hvalid.fact i) (hvalid.lock i)
      constructor
      · cases hadvances.commits with
        | nothing _ hsame => exact ⟨more, by rw [hsame, hlog], hmore⟩
        | event event _ hnext _ hallowed =>
          refine ⟨more ++ [(i, event)], by rw [hnext, hlog, List.append_assoc], fun entry hentry => ?_⟩
          rcases List.mem_append.mp hentry with hentry | hentry
          · exact hmore entry hentry
          · rw [List.mem_singleton.mp hentry]
            exact keepsOff_of_commits hlineage hprogress hm hnew hmem hallowed
      · intro hbreaking hopened
        refine hopens hbreaking ?_
        rw [hpcs] at hopened
        by_cases hwho : who = i
        · subst hwho
          rw [Function.update_self] at hopened
          subst hopened
          have hrefuses : refuses (bins who) s₁.shared.db = true :=
            List.any_eq_true.mpr ⟨m.name, unknown_of_stamped hlineage hm hnew hmem, hbreaking⟩
          rw [opened_of_advance hadvance] at hrefuses
          cases hrefuses
        · rwa [Function.update_of_ne hwho] at hopened

theorem older_keeps_off_versions : ∃ s s' : State Nat, Steps (step versions) s s' ∧ (s'.pcs 0).ended = true ∧
    (∃ more, s'.shared.log = s.shared.log ++ more ∧ ∀ entry ∈ more, KeepsOff 0 entry) ∧
      (breakingPrefix.isPrefixOf reshape.name = true → s'.pcs 0 = .opened → s.pcs 0 = .opened) := by
  obtain ⟨s, hsteps, -, hmem, s', hstep, hended⟩ := steps_newer
  have hlater : Steps (step versions) s s' := .single _ hstep
  have hnew : reshape ∉ (versions 0).migrations := by
    intro h
    have hname : reshape.name = nameTail.name := congrArg Migration.name (List.mem_singleton.mp h)
    revert hname
    decide
  exact ⟨s, s', hlater, hended, older_keeps_off lineage_versions (Nat.zero_le _) rfl hsteps (by simp) hnew hmem hlater⟩

end Results

end Migrations
end Storage
end CodeSage
