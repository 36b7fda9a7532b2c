import Mathlib.Algebra.Order.Ring.Int
import Mathlib.Data.List.AList
import Mathlib.Data.List.Sigma
import Mathlib.Algebra.BigOperators.Group.List.Basic
import CodeSage.Lib.Assoc

/-!
# CodeSage.Lib.Table

Keyed tables: a row is written by what stood under its key, whole batches of rows with distinct keys are
written one after the other, and rows are deleted by a condition on their key. Each lemma gives the row
under a key afterwards.
-/

namespace Lib

abbrev Table (κ ν : Type) := AList fun _ : κ => ν

namespace Table

variable {κ ν μ : Type} [DecidableEq κ]

/-- The row under `k` becomes `f` of the row that was there. -/
def put (m : Table κ ν) (k : κ) (f : Option ν → ν) : Table κ ν := m.insert k (f (m.lookup k))

theorem lookup_put (m : Table κ ν) (k k' : κ) (f : Option ν → ν) :
    (m.put k f).lookup k' = if k' = k then some (f (m.lookup k)) else m.lookup k' := by
  rw [put, lookup_insert]

def putAll (f : μ → Option ν → ν) (m : Table κ ν) (rows : List (κ × μ)) : Table κ ν :=
  rows.foldl (fun m row => m.put row.1 (f row.2)) m

section PutAll

variable {f : μ → Option ν → ν} {rows : List (κ × μ)} {k : κ}

theorem putAll_concat (m : Table κ ν) (row : κ × μ) :
    putAll f m (rows ++ [row]) = (putAll f m rows).put row.1 (f row.2) := by
  rw [putAll, List.foldl_append]
  rfl

theorem lookup_putAll_of_notMem : ∀ {m : Table κ ν}, k ∉ rows.map Prod.fst →
    (putAll f m rows).lookup k = m.lookup k := by
  induction rows with
  | nil => intro m _; rfl
  | cons row rows ih =>
    intro m hk
    rw [List.map_cons, List.mem_cons, not_or] at hk
    rw [putAll, List.foldl_cons]
    rw [← putAll, ih hk.2, lookup_put, if_neg hk.1]

theorem lookup_putAll_of_mem {v : μ} : ∀ {m : Table κ ν}, (rows.map Prod.fst).Nodup → (k, v) ∈ rows →
    (putAll f m rows).lookup k = some (f v (m.lookup k)) := by
  induction rows with
  | nil => intro m _ hmem; cases hmem
  | cons row rows ih =>
    intro m hnodup hmem
    rw [List.map_cons, List.nodup_cons] at hnodup
    rw [putAll, List.foldl_cons, ← putAll]
    rcases List.mem_cons.mp hmem with rfl | hmem
    · rw [lookup_putAll_of_notMem hnodup.1, lookup_put, if_pos rfl]
    · have hne : k ≠ row.1 := by
        rintro rfl
        exact hnodup.1 (List.mem_map.mpr ⟨_, hmem, rfl⟩)
      rw [ih hnodup.2 hmem, lookup_put, if_neg hne]

/-- Rows written under one key are folded into what stands there. -/
theorem lookup_putAll (f : μ → Option ν → ν) (rows : List (κ × μ)) (k : κ) : ∀ m : Table κ ν,
    (putAll f m rows).lookup k =
      (rows.filter fun row => row.1 = k).foldl (fun old row => some (f row.2 old)) (m.lookup k) := by
  induction rows with
  | nil => exact fun m => rfl
  | cons row rows ih =>
    intro m
    rw [putAll, List.foldl_cons, ← putAll, ih, lookup_put]
    by_cases hk : k = row.1
    · rw [if_pos hk, List.filter_cons_of_pos (by simpa using hk.symm), List.foldl_cons, hk]
    · rw [if_neg hk, List.filter_cons_of_neg (by simpa using Ne.symm hk)]

end PutAll

/-- A table from pairs; of pairs with the same key the last one counts. -/
def collect (rows : List (κ × ν)) : Table κ ν := putAll (fun v _ => v) ∅ rows

theorem lookup_collect {rows : List (κ × ν)} (hnodup : (rows.map Prod.fst).Nodup) {k : κ} {v : ν} :
    (collect rows).lookup k = some v ↔ (k, v) ∈ rows := by
  constructor
  · intro h
    by_cases hk : k ∈ rows.map Prod.fst
    · obtain ⟨⟨k', v'⟩, hmem, rfl⟩ := List.mem_map.mp hk
      rw [collect, lookup_putAll_of_mem hnodup hmem, Option.some_inj] at h
      exact h ▸ hmem
    · rw [collect, lookup_putAll_of_notMem hk] at h
      cases h
  · intro hmem
    rw [collect, lookup_putAll_of_mem hnodup hmem]

/-- Equality of the maps: as many keys, and each with the same value. -/
def same [DecidableEq ν] (a b : Table κ ν) : Bool :=
  a.keys.length = b.keys.length && a.keys.all fun k => a.lookup k = b.lookup k

theorem lookup_eq_of_same [DecidableEq ν] {a b : Table κ ν} (h : a.same b = true) (k : κ) : a.lookup k = b.lookup k := by
  rw [same, Bool.and_eq_true, decide_eq_true_eq, List.all_eq_true] at h
  obtain ⟨hlength, hall⟩ := h
  have hsub : a.keys ⊆ b.keys := by
    intro k' hk'
    have heq := of_decide_eq_true (hall k' hk')
    rw [← AList.mem_keys, mem_iff_lookup, heq, ← mem_iff_lookup, AList.mem_keys] at hk'
    exact hk'
  have hperm : a.keys.Perm b.keys := (List.subperm_of_subset a.nodupKeys hsub).perm_of_length_le hlength.ge
  by_cases hk : k ∈ a.keys
  · exact of_decide_eq_true (hall k hk)
  · rw [AList.lookup_eq_none.mpr (mt AList.mem_keys.mp hk),
      AList.lookup_eq_none.mpr (mt AList.mem_keys.mp (mt hperm.mem_iff.mpr hk))]

/-- The rows of a table, each with its key. -/
def rows (m : Table κ ν) : List (κ × ν) := m.entries.map fun e => (e.1, e.2)

theorem mem_rows {m : Table κ ν} {k : κ} {v : ν} : (k, v) ∈ m.rows ↔ m.lookup k = some v := by
  rw [rows, List.mem_map]
  constructor
  · rintro ⟨⟨k', v'⟩, hmem, heq⟩
    cases heq
    exact AList.mem_lookup_iff.mpr hmem
  · intro h
    exact ⟨⟨k, v⟩, AList.mem_lookup_iff.mp h, rfl⟩

omit [DecidableEq κ] in
theorem keys_rows (m : Table κ ν) : m.rows.map Prod.fst = m.keys := by
  rw [rows, List.map_map]
  rfl

omit [DecidableEq κ] in
theorem nodup_rows (m : Table κ ν) : (m.rows.map Prod.fst).Nodup := by
  rw [keys_rows]
  exact m.nodupKeys

theorem rows_filter_key (m : Table κ ν) (k : κ) :
    (m.rows.filter fun row => row.1 = k) = ((m.lookup k).map fun v => (k, v)).toList := by
  have hmem : ∀ row, row ∈ (m.rows.filter fun row => row.1 = k) ↔ row.1 = k ∧ m.lookup k = some row.2 := by
    rintro ⟨k', v⟩
    rw [List.mem_filter, mem_rows, decide_eq_true_eq]
    constructor
    · rintro ⟨hv, rfl⟩
      exact ⟨rfl, hv⟩
    · rintro ⟨rfl, hv⟩
      exact ⟨hv, rfl⟩
  cases hk : m.lookup k with
  | none =>
    refine List.eq_nil_iff_forall_not_mem.mpr fun row hrow => ?_
    rw [hmem, hk] at hrow
    cases hrow.2
  | some v =>
    refine List.perm_singleton.mp ((List.perm_ext_iff_of_nodup (m.nodup_rows.of_map.filter _)
      (List.nodup_singleton _)).mpr fun row => ?_)
    rw [hmem, hk, List.mem_singleton, Option.some_inj, Prod.ext_iff]
    exact and_congr_right fun _ => eq_comm

theorem lookup_putAll_rows (f : μ → Option ν → ν) (m : Table κ ν) (delta : Table κ μ) (k : κ) :
    (putAll f m delta.rows).lookup k = (delta.lookup k).elim (m.lookup k) fun v => some (f v (m.lookup k)) := by
  cases hk : delta.lookup k with
  | none =>
    refine lookup_putAll_of_notMem ?_
    rw [keys_rows]
    exact AList.lookup_eq_none.mp hk
  | some v => exact lookup_putAll_of_mem delta.nodup_rows (mem_rows.mpr hk)

theorem lookup_foldl_put {f : Option ν → ν} {keys : List κ} {m : Table κ ν} (hnodup : keys.Nodup) (k : κ) :
    (keys.foldl (fun m key => m.put key f) m).lookup k =
      if k ∈ keys then some (f (m.lookup k)) else m.lookup k := by
  have hfold : keys.foldl (fun m key => m.put key f) m =
      putAll (fun (_ : Unit) => f) m (keys.map fun key => (key, ())) := by
    rw [putAll, List.foldl_map]
  have hkeys : (keys.map fun key => (key, ())).map Prod.fst = keys := by
    rw [List.map_map]
    exact List.map_id keys
  rw [hfold]
  split
  · rename_i hk
    exact lookup_putAll_of_mem (by rwa [hkeys]) (List.mem_map_of_mem hk)
  · rename_i hk
    exact lookup_putAll_of_notMem (by rwa [hkeys])

/-- `DELETE … WHERE` on the key -/
def deleteWhere (p : κ → Bool) (m : Table κ ν) : Table κ ν :=
  ⟨m.entries.filter fun e => !p e.1, m.nodupKeys.sublist List.filter_sublist⟩

theorem lookup_deleteWhere (p : κ → Bool) (m : Table κ ν) (k : κ) :
    (m.deleteWhere p).lookup k = if p k then none else m.lookup k := by
  have hmem : ∀ v, (m.deleteWhere p).lookup k = some v ↔ p k = false ∧ m.lookup k = some v := by
    intro v
    have hfilter : (⟨k, v⟩ : Sigma fun _ => ν) ∈ (m.deleteWhere p).entries ↔ ⟨k, v⟩ ∈ m.entries ∧ (!p k) = true :=
      List.mem_filter
    rw [← Option.mem_def, AList.mem_lookup_iff, hfilter, ← AList.mem_lookup_iff, Option.mem_def, and_comm,
      Bool.not_eq_true']
  ext v
  rw [hmem]
  cases p k <;> simp

/-- An `UPDATE` of every row. -/
def mapRows (f : κ → ν → ν) (m : Table κ ν) : Table κ ν :=
  ⟨m.entries.map fun e => ⟨e.1, f e.1 e.2⟩, by
    rw [List.NodupKeys, List.keys, List.map_map]
    exact m.nodupKeys⟩

theorem lookup_mapRows (f : κ → ν → ν) (m : Table κ ν) (k : κ) :
    (m.mapRows f).lookup k = (m.lookup k).map (f k) := by
  obtain ⟨entries, hnodup⟩ := m
  change List.dlookup k (entries.map fun e => (⟨e.1, f e.1 e.2⟩ : Sigma fun _ : κ => ν)) =
    (List.dlookup k entries).map (f k)
  clear hnodup
  induction entries with
  | nil => rfl
  | cons e entries ih =>
    obtain ⟨k', v⟩ := e
    rw [List.map_cons]
    by_cases h : k = k'
    · subst h
      rw [List.dlookup_cons_eq, List.dlookup_cons_eq, Option.map_some]
    · rw [List.dlookup_cons_ne _ _ h, List.dlookup_cons_ne _ _ h, ih]

/-- A condition on the row itself. -/
def deleteRows (p : ν → Bool) (m : Table κ ν) : Table κ ν :=
  ⟨m.entries.filter fun e => !p e.2, m.nodupKeys.sublist List.filter_sublist⟩

theorem lookup_deleteRows (p : ν → Bool) (m : Table κ ν) (k : κ) :
    (m.deleteRows p).lookup k = (m.lookup k).filter fun v => !p v := by
  ext v
  have hfilter : (⟨k, v⟩ : Sigma fun _ => ν) ∈ (m.deleteRows p).entries ↔ ⟨k, v⟩ ∈ m.entries ∧ (!p v) = true :=
    List.mem_filter
  rw [← Option.mem_def, AList.mem_lookup_iff, hfilter, ← AList.mem_lookup_iff, Option.mem_def, Option.filter_eq_some_iff]

theorem deleteRows_of_none {p : ν → Bool} {m : Table κ ν} (h : ∀ k v, m.lookup k = some v → p v = false) :
    m.deleteRows p = m := by
  have hall : m.entries.filter (fun e => !p e.2) = m.entries := by
    refine List.filter_eq_self.mpr fun e he => ?_
    rw [h e.1 e.2 (AList.mem_lookup_iff.mpr he)]
    rfl
  exact AList.ext hall

section Total

variable {f : κ → ν → Nat} {m : Table κ ν} {k : κ} {v : ν}

/-- A sum over the rows. -/
def total (f : κ → ν → Nat) (m : Table κ ν) : Nat := (m.rows.map fun row => f row.1 row.2).sum

omit [DecidableEq κ] in
@[simp] theorem total_empty (f : κ → ν → Nat) : total f (∅ : Table κ ν) = 0 := rfl

theorem total_erase (f : κ → ν → Nat) (m : Table κ ν) (k : κ) :
    total f (m.erase k) + ((m.lookup k).map (f k)).getD 0 = total f m := by
  have hentries : ∀ m : Table κ ν, total f m = (m.entries.map fun e => f e.1 e.2).sum := by
    intro m
    rw [total, rows, List.map_map]
    rfl
  rw [hentries, hentries]
  cases h : m.lookup k with
  | none =>
    rw [erase_entries_of_lookup_none h]
    rfl
  | some v =>
    rw [((entries_perm_erase h).map fun e => f e.1 e.2).sum_eq, List.map_cons, List.sum_cons, Nat.add_comm]
    rfl

theorem total_insert (f : κ → ν → Nat) (m : Table κ ν) (k : κ) (v : ν) :
    total f (m.insert k v) + ((m.lookup k).map (f k)).getD 0 = total f m + f k v := by
  have herase := total_erase f m k
  have hinsert : total f (m.insert k v) = f k v + total f (m.erase k) := by
    rw [total, rows, AList.entries_insert, List.map_cons, List.map_cons, List.sum_cons]
    rfl
  omega

theorem le_total (h : m.lookup k = some v) : f k v ≤ total f m := by
  have := total_erase f m k
  rw [h, Option.map_some, Option.getD_some] at this
  omega

theorem total_eq_zero (h : ∀ k v, m.lookup k = some v → f k v = 0) : total f m = 0 := by
  rw [total, List.sum_eq_zero_iff_forall_eq_nat]
  intro n hn
  obtain ⟨row, hrow, rfl⟩ := List.mem_map.mp hn
  exact h row.1 row.2 (mem_rows.mp hrow)

end Total

section Rekey

variable {p : κ → Bool} {m : Table κ ν} {moved : List (κ × ν)} {F : κ → Option κ} {g : ν → Option ν → ν}

/-- The moved rows are the rows whose key is moved, in some order. -/
theorem moved_perm (hkeys : (moved.map Prod.fst).Nodup)
    (hmoved : ∀ k v, (k, v) ∈ moved ↔ m.lookup k = some v ∧ p k = true) :
    moved.Perm (m.rows.filter fun row => p row.1) := by
  refine (List.perm_ext_iff_of_nodup hkeys.of_map (m.nodup_rows.of_map.filter _)).mpr ?_
  rintro ⟨k, v⟩
  rw [hmoved, List.mem_filter, mem_rows]

/-- The rows written under `q` are the moved rows that go there. -/
theorem written_perm (hkeys : (moved.map Prod.fst).Nodup)
    (hmoved : ∀ k v, (k, v) ∈ moved ↔ m.lookup k = some v ∧ p k = true) (q : κ) :
    (((moved.filterMap fun row => (F row.1).map fun q => (q, row.2)).filter fun row => row.1 = q).map Prod.snd).Perm
      (((m.rows.filter fun row => F row.1 = some q).filter fun row => p row.1).map Prod.snd) := by
  have hwritten : ((moved.filterMap fun row => (F row.1).map fun q => (q, row.2)).filter fun row => row.1 = q).map
      Prod.snd = (moved.filter fun row => F row.1 = some q).map Prod.snd := by
    clear hkeys hmoved
    induction moved with
    | nil => rfl
    | cons row moved ih =>
      rw [List.filterMap_cons]
      cases hF : F row.1 with
      | none =>
        rw [List.filter_cons_of_neg (by simp [hF])]
        exact ih
      | some q' =>
        by_cases hq : q' = q
        · rw [List.filter_cons_of_pos (by simpa [hF] using hq)]
          simp only [Option.map_some]
          rw [List.filter_cons_of_pos (by simpa using hq), List.map_cons, List.map_cons, ih]
        · rw [List.filter_cons_of_neg (by simpa [hF] using hq)]
          simp only [Option.map_some]
          rw [List.filter_cons_of_neg (by simpa using hq)]
          exact ih
  have hperm := ((moved_perm hkeys hmoved).filter fun row => F row.1 = some q).map Prod.snd
  rwa [List.filter_comm, ← hwritten] at hperm

/-- What stays under `q` and the moved rows that go there are the rows that go to `q`. -/
theorem rows_to_perm (hkeys : (moved.map Prod.fst).Nodup)
    (hmoved : ∀ k v, (k, v) ∈ moved ↔ m.lookup k = some v ∧ p k = true)
    (hstay : ∀ k v, m.lookup k = some v → p k = false → F k = some k) (q : κ) :
    ((if p q then none else m.lookup q).toList ++
      ((moved.filterMap fun row => (F row.1).map fun q => (q, row.2)).filter fun row => row.1 = q).map Prod.snd).Perm
      ((m.rows.filter fun row => F row.1 = some q).map Prod.snd) := by
  have hstays : ((if p q then none else m.lookup q).toList.map fun v => (q, v)).Perm
      ((m.rows.filter fun row => F row.1 = some q).filter fun row => !p row.1) := by
    refine (List.perm_ext_iff_of_nodup ?_ ((m.nodup_rows.of_map.filter _).filter _)).mpr ?_
    · cases (if p q then none else m.lookup q) <;> simp
    · rintro ⟨k, v⟩
      simp only [List.mem_map, Option.mem_toList, List.mem_filter, mem_rows, decide_eq_true_eq, Prod.mk.injEq,
        Bool.not_eq_true']
      constructor
      · rintro ⟨v', hv', rfl, rfl⟩
        split at hv'
        · cases hv'
        · rename_i hp
          have hp := Bool.eq_false_iff.mpr hp
          exact ⟨⟨hv', hstay q v' hv' hp⟩, hp⟩
      · rintro ⟨⟨hk, hF⟩, hp⟩
        have hkq : k = q := Option.some_inj.mp ((hstay k v hk hp).symm.trans hF)
        subst hkq
        exact ⟨v, by rw [hp]; exact hk, rfl, rfl⟩
  have hall := (hstays.map Prod.snd).append (written_perm (F := F) hkeys hmoved q)
  have hsplit := (List.perm_append_comm.trans
    (List.filter_append_perm (fun row : κ × ν => p row.1) (m.rows.filter fun row => F row.1 = some q))).map Prod.snd
  rw [List.map_append] at hsplit
  have hrows := hall.trans hsplit
  rw [List.map_map] at hrows
  simpa [Function.comp_def] using hrows

/-- Moving rows to new keys: the moved rows are taken out and those that `F` keeps are written back under
their new key. Where `F` keeps the keys apart, the table has the kept rows under their new keys. -/
theorem lookup_rekey (hkeys : (moved.map Prod.fst).Nodup)
    (hmoved : ∀ k v, (k, v) ∈ moved ↔ m.lookup k = some v ∧ p k = true)
    (hinj : ∀ k k' v v' q, m.lookup k = some v → m.lookup k' = some v' → F k = some q → F k' = some q → k = k')
    (hstay : ∀ k v, m.lookup k = some v → p k = false → F k = some k)
    (hg : ∀ k v, m.lookup k = some v → g v none = v) (q : κ) (v : ν) :
    (putAll g (m.deleteWhere p) (moved.filterMap fun row => (F row.1).map fun q => (q, row.2))).lookup q = some v ↔
      ∃ k, m.lookup k = some v ∧ F k = some q := by
  have hwritten : ∀ q v, (q, v) ∈ moved.filterMap (fun row => (F row.1).map fun q => (q, row.2)) ↔
      ∃ k, m.lookup k = some v ∧ p k = true ∧ F k = some q := by
    intro q v
    rw [List.mem_filterMap]
    constructor
    · rintro ⟨⟨k, v'⟩, hrow, heq⟩
      obtain ⟨q', hF, heq⟩ := Option.map_eq_some_iff.mp heq
      cases heq
      obtain ⟨hk, hp⟩ := (hmoved k v').mp hrow
      exact ⟨k, hk, hp, hF⟩
    · rintro ⟨k, hk, hp, hF⟩
      exact ⟨(k, v), (hmoved k v).mpr ⟨hk, hp⟩, by rw [hF]; rfl⟩
  have hnodup : ((moved.filterMap fun row => (F row.1).map fun q => (q, row.2)).map Prod.fst).Nodup := by
    have hfst : (moved.filterMap fun row => (F row.1).map fun q => (q, row.2)).map Prod.fst =
        (moved.map Prod.fst).filterMap F := by
      rw [List.map_filterMap, List.filterMap_map]
      refine List.filterMap_congr fun row _ => ?_
      rw [Option.map_map]
      exact Option.map_id'
    have hlookup : ∀ k ∈ moved.map Prod.fst, ∃ v, m.lookup k = some v := by
      intro k hk
      obtain ⟨⟨k', v⟩, hrow, rfl⟩ := List.mem_map.mp hk
      exact ⟨v, ((hmoved k' v).mp hrow).1⟩
    rw [hfst]
    refine List.Pairwise.filterMap F (R := fun k k' => k ≠ k' ∧ k ∈ moved.map Prod.fst ∧ k' ∈ moved.map Prod.fst) ?_ ?_
    · rintro k k' ⟨hne, hk, hk'⟩ q hq q' hq' rfl
      obtain ⟨v, hv⟩ := hlookup k hk
      obtain ⟨v', hv'⟩ := hlookup k' hk'
      exact hne (hinj k k' v v' q hv hv' hq hq')
    · exact hkeys.imp_of_mem fun hk hk' hne => ⟨hne, hk, hk'⟩
  -- a row that stays is not written over: its key is no other row's new key
  have hkept : ∀ v, m.lookup q = some v → p q = false →
      q ∉ (moved.filterMap fun row => (F row.1).map fun q => (q, row.2)).map Prod.fst := by
    intro v hq hp hmem
    obtain ⟨⟨q', v'⟩, hrow, rfl⟩ := List.mem_map.mp hmem
    obtain ⟨k, hk, hpk, hF⟩ := (hwritten q' v').mp hrow
    have := hinj k q' v' v q' hk hq hF (hstay q' v hq hp)
    rw [this, hp] at hpk
    cases hpk
  by_cases hq : q ∈ (moved.filterMap fun row => (F row.1).map fun q => (q, row.2)).map Prod.fst
  · obtain ⟨⟨q', v₀⟩, hrow, rfl⟩ := List.mem_map.mp hq
    obtain ⟨k, hk, hpk, hF⟩ := (hwritten q' v₀).mp hrow
    have hfree : (m.deleteWhere p).lookup q' = none := by
      rw [lookup_deleteWhere]
      split
      · rfl
      · rename_i hpq
        cases hlook : m.lookup q' with
        | none => rfl
        | some v₁ => exact absurd hq (hkept v₁ hlook (by simpa using hpq))
    rw [lookup_putAll_of_mem hnodup hrow, hfree, hg k v₀ hk]
    constructor
    · intro heq
      exact ⟨k, by rw [hk, heq], hF⟩
    · rintro ⟨k', hk', hF'⟩
      rw [← hinj k' k v v₀ q' hk' hk hF' hF, hk'] at hk
      exact hk.symm
  · rw [lookup_putAll_of_notMem hq, lookup_deleteWhere]
    constructor
    · intro h
      split at h
      · cases h
      · rename_i hpq
        exact ⟨q, h, hstay q v h (by simpa using hpq)⟩
    · rintro ⟨k, hk, hF⟩
      cases hpk : p k with
      | true => exact absurd (List.mem_map.mpr ⟨(q, v), (hwritten q v).mpr ⟨k, hk, hpk, hF⟩, rfl⟩) hq
      | false =>
        have hkq : k = q := by
          rw [hstay k v hk hpk, Option.some_inj] at hF
          exact hF
        rw [← hkq, if_neg (by simp [hpk]), hk]

end Rekey

section Memo

variable {f : κ → ν} {m : Table κ ν}

/-- A memo of `f`: every row is what `f` gives its key. -/
def Memo (f : κ → ν) (m : Table κ ν) : Prop := ∀ k v, m.lookup k = some v → v = f k

theorem memo_empty : Memo f (∅ : Table κ ν) := fun _ _ h => (nomatch h)

theorem Memo.insert (h : Memo f m) (k : κ) : Memo f (m.insert k (f k)) := by
  intro k' v hv
  rw [lookup_insert] at hv
  split at hv
  · rename_i hk
    cases hv
    rw [hk]
  · exact h k' v hv

end Memo

end Table

end Lib
