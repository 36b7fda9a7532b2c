import Mathlib.Algebra.Order.Ring.Int
import CodeSage.Git.Rekey
import CodeSage.Git.RekeySql

/-!
# CodeSage.Git.RekeySubstitution

Re-keying as one simultaneous substitution, for any store and any moves with distinct sources. `fileTotal` and
`pairTotal` say what it means to merge rows, without an order; a row written back is folded into what stands
under its new key, and that fold is the total of all rows that go there.
-/

namespace CodeSage
namespace Git

open Lib

/-! ## Merging rows -/

/-- The rows of one path: counts added, the latest commit. -/
def fileTotal (rows : List GitFileRow) : Option GitFileRow :=
  if rows = [] then none
  else some ⟨(rows.map (·.fixCount)).sum, (rows.map (·.totalCommits)).sum, (rows.filterMap (·.lastCommitAt)).max?⟩

/-- All of the rows know their first observation. -/
def baselined (rows : List CoChangeRow) : Bool := rows.all (·.firstObservedAt.isSome)

/-- The windows of several rows; a row without a first observation makes them unknown. -/
def maskTotal (rows : List CoChangeRow) : UInt64 :=
  if rows.length = 1 || baselined rows then (rows.map (·.windowMask)).foldl (· ||| ·) 0 else 0

/-- The rows of one pair: counts added, the span as far as every row knows it. -/
def pairTotal (rows : List CoChangeRow) : Option CoChangeRow :=
  if rows = [] then none
  else some {
    count := (rows.map (·.count)).sum
    lastObservedAt := (rows.filterMap (·.lastObservedAt)).max?
    firstObservedAt := if baselined rows then (rows.filterMap (·.firstObservedAt)).min? else none
    windowMask := maskTotal rows
    windows := windowsOf (maskTotal rows) }

section Totals

theorem perm_eq_nil_iff {α : Type} {l l' : List α} (h : l.Perm l') : l = [] ↔ l' = [] := by
  constructor
  · rintro rfl
    exact h.nil_eq.symm
  · rintro rfl
    exact h.eq_nil

theorem fileTotal_perm {rows rows' : List GitFileRow} (h : rows.Perm rows') : fileTotal rows = fileTotal rows' := by
  simp only [fileTotal, perm_eq_nil_iff h, (h.map _).sum_eq, max?_perm (h.filterMap _)]

theorem baselined_perm {rows rows' : List CoChangeRow} (h : rows.Perm rows') : baselined rows = baselined rows' := by
  rw [Bool.eq_iff_iff, baselined, baselined, List.all_eq_true, List.all_eq_true]
  exact forall_congr' fun row => by rw [h.mem_iff]

theorem maskTotal_perm {rows rows' : List CoChangeRow} (h : rows.Perm rows') : maskTotal rows = maskTotal rows' := by
  have hor : RightCommutative fun a b : UInt64 => a ||| b :=
    ⟨fun a b c => by rw [UInt64.or_assoc, UInt64.or_comm b, ← UInt64.or_assoc]⟩
  have hfold : (rows.map (·.windowMask)).foldl (· ||| ·) 0 = (rows'.map (·.windowMask)).foldl (· ||| ·) 0 :=
    (h.map _).foldl_eq 0
  simp only [maskTotal, h.length_eq, baselined_perm h, hfold]

theorem pairTotal_perm {rows rows' : List CoChangeRow} (h : rows.Perm rows') : pairTotal rows = pairTotal rows' := by
  simp only [pairTotal, perm_eq_nil_iff h, (h.map _).sum_eq, max?_perm (h.filterMap _), min?_perm (h.filterMap _),
    baselined_perm h, maskTotal_perm h]

theorem max?_filterMap_concat {α : Type} (f : α → Option Int) (rows : List α) (row : α) :
    ((rows ++ [row]).filterMap f).max? = newest (rows.filterMap f).max? (f row) := by
  rw [List.filterMap_append]
  cases hf : f row with
  | none =>
    rw [List.filterMap_cons_none hf, List.filterMap_nil, List.append_nil]
    cases (rows.filterMap f).max? <;> rfl
  | some t =>
    rw [List.filterMap_cons_some hf, List.filterMap_nil, ← newest_eq]
    rfl

theorem fileTotal_singleton (row : GitFileRow) : fileTotal [row] = some row := by
  have hlast : ([row].filterMap (·.lastCommitAt)).max? = row.lastCommitAt := by
    have := max?_filterMap_concat GitFileRow.lastCommitAt [] row
    rw [List.nil_append] at this
    rw [this]
    cases row.lastCommitAt <;> rfl
  simp only [fileTotal, hlast]
  simp

theorem fileTotal_concat (rows : List GitFileRow) (row : GitFileRow) :
    fileTotal (rows ++ [row]) = some (fileRow row (fileTotal rows)) := by
  cases hrows : rows with
  | nil =>
    rw [List.nil_append, fileTotal_singleton]
    rfl
  | cons r rest =>
    rw [← hrows]
    have hne : rows ≠ [] := by simp [hrows]
    simp only [fileTotal, if_neg hne, if_neg (List.append_ne_nil_of_right_ne_nil rows (List.cons_ne_nil row [])),
      max?_filterMap_concat, fileRow, List.map_append, List.sum_append]
    simp

/-- Rows folded into the row of their path, in any order: the total. -/
theorem foldl_fileRow (rows : List GitFileRow) (old : Option GitFileRow) :
    rows.foldl (fun old row => some (fileRow row old)) old = fileTotal (old.toList ++ rows) := by
  induction rows using List.reverseRecOn with
  | nil =>
    cases old with
    | none => rfl
    | some row => exact (fileTotal_singleton row).symm
  | append_singleton rows row ih =>
    rw [List.foldl_append, ih, ← List.append_assoc, fileTotal_concat]
    rfl

theorem baselined_concat (rows : List CoChangeRow) (row : CoChangeRow) :
    baselined (rows ++ [row]) = (baselined rows && row.firstObservedAt.isSome) := by
  simp [baselined]

theorem min?_baselined {rows : List CoChangeRow} (hne : rows ≠ []) (h : baselined rows = true) :
    ∃ t, (rows.filterMap (·.firstObservedAt)).min? = some t := by
  cases rows with
  | nil => exact absurd rfl hne
  | cons row rows =>
    rw [baselined, List.all_cons, Bool.and_eq_true] at h
    obtain ⟨t, ht⟩ := Option.isSome_iff_exists.mp h.1
    rw [List.filterMap_cons_some ht]
    exact ⟨_, List.min?_cons⟩

theorem pairTotal_singleton (row : CoChangeRow) : pairTotal [row] = some row.write.row := by
  obtain ⟨count, last, first, mask, windows⟩ := row
  cases last <;> cases first <;>
    simp [pairTotal, maskTotal, baselined, CoChangeRow.write, CoChangeWrite.row]

theorem pairTotal_concat (rows : List CoChangeRow) (row : CoChangeRow) :
    pairTotal (rows ++ [row]) = some (mergedRow row.write (pairTotal rows)) := by
  cases hrows : rows with
  | nil => exact pairTotal_singleton row
  | cons r rest =>
    rw [← hrows]
    have hne : rows ≠ [] := by simp [hrows]
    have hlength : ¬(rows ++ [row]).length = 1 := by simp [hrows]
    have hmask : maskTotal (rows ++ [row]) =
        if baselined rows && row.firstObservedAt.isSome then maskTotal rows ||| row.windowMask else 0 := by
      rw [maskTotal, baselined_concat]
      simp only [hlength, decide_false, Bool.false_or]
      split
      · rename_i hbase
        rw [Bool.and_eq_true] at hbase
        rw [maskTotal, if_pos (by rw [hbase.1, Bool.or_true]), List.map_append, List.foldl_append]
        rfl
      · rfl
    rw [pairTotal, if_neg (List.append_ne_nil_of_right_ne_nil rows (List.cons_ne_nil row [])), hmask,
      baselined_concat, max?_filterMap_concat, pairTotal, if_neg hne]
    cases hbase : baselined rows with
    | false => simp [mergedRow, CoChangeRow.write]
    | true =>
      obtain ⟨t, ht⟩ := min?_baselined hne hbase
      cases hfirst : row.firstObservedAt with
      | none => simp [mergedRow, CoChangeRow.write, hfirst]
      | some u =>
        have hmin : (rows.filterMap (·.firstObservedAt) ++ [u]).min? = some (min t u) := by
          rw [min?_append, ht]
          rfl
        simp [mergedRow, CoChangeRow.write, hfirst, ht, hmin]

/-- Rows folded into the row of their pair, in any order: the total, if there is one at all. -/
theorem foldl_mergedRow (rows : List CoChangeRow) (old : Option CoChangeRow) :
    rows.foldl (fun old row => some (mergedRow row.write old)) old =
      if rows = [] then old else pairTotal (old.toList ++ rows) := by
  induction rows using List.reverseRecOn with
  | nil => rfl
  | append_singleton rows row ih =>
    rw [List.foldl_append, ih, if_neg (List.append_ne_nil_of_right_ne_nil rows (List.cons_ne_nil row [])),
      ← List.append_assoc, pairTotal_concat]
    split
    · rename_i hnil
      subst hnil
      cases old with
      | none => rfl
      | some old =>
        -- the windows of the row written over are not read
        rw [List.append_nil, Option.toList_some, pairTotal_singleton]
        rfl
    · rfl

end Totals

/-! ## The substitution -/

/-- The pair rows are stored in order, as `order_co_change_pair` writes them. -/
def PairsOrdered (db : Database) : Prop := ∀ pair row, db.gitCoChanges.lookup pair = some row → textLt pair.1 pair.2

/-- The rows whose path goes to `q`. -/
def rowsTo (moves : List Move) (db : Database) (q : String) : List (String × GitFileRow) :=
  db.gitFiles.rows.filter fun row => moved moves row.1 = some q

/-- The rows whose two paths go to the two paths of `q`. -/
def pairRowsTo (moves : List Move) (db : Database) (q : String × String) : List ((String × String) × CoChangeRow) :=
  db.gitCoChanges.rows.filter fun row => movedPair moves row.1 = some q

/-- One of the paths of the pair is superseded. -/
def touched (moves : List Move) (pair : String × String) : Bool := isMoved moves pair.1 || isMoved moves pair.2

/-- The events of commit `sha` under `q`: the one that stays, then those that go there, in the order of the moves. -/
def eventsTo (moves : List Move) (db : Database) (q sha : String) : List AuthorEvent :=
  (if isMoved moves q then none else db.authorEvents.lookup (q, sha)).toList ++
    (moves.filter fun m => m.2 = some q).filterMap fun m => db.authorEvents.lookup (m.1, sha)

/-- `db'` holds the rows of `db` with every path replaced at once. -/
structure Substituted (moves : List Move) (db db' : Database) : Prop where
  files : ∀ q, db'.gitFiles.lookup q = fileTotal ((rowsTo moves db q).map Prod.snd)
  pairs : ∀ q, textLt q.1 q.2 → db'.gitCoChanges.lookup q =
    if (pairRowsTo moves db q).any fun row => touched moves row.1 then pairTotal ((pairRowsTo moves db q).map Prod.snd)
    else ((pairRowsTo moves db q).map Prod.snd).head?
  ordered : PairsOrdered db'
  events : ∀ q sha, db'.authorEvents.lookup (q, sha) = (eventsTo moves db q sha).head?

section Reading

variable {targets : List Move} {b : Database} {db : Database}

theorem writes_prepare : Writes prepare b () db fun _ db' => db' = db := Writes.query fun _ _ => rfl

theorem writes_readMove (read : ReadRows) (m : Move) : Writes (readMove read m) b () db fun read' db' =>
    db' = db ∧ read' = (read.1 ++ ((db.gitFiles.lookup m.1).map fun row => (m.1, row)).toList,
      read.2 ++ (db.gitCoChanges.rows.filter fun row =>
        (row.1.1 = m.1 ∨ row.1.2 = m.1) ∧ row.1 ∉ read.2.map Prod.fst)) := by
  refine Writes.bind (R := fun row db' => db' = db ∧ row = db.gitFiles.lookup m.1) ?_ ?_
  · refine Writes.query fun row hrow => ⟨rfl, ?_⟩
    exact (Option.some_inj.mp hrow).symm
  rintro row db' ⟨rfl, rfl⟩
  refine Writes.bind (R := fun pairs db'' => db'' = db' ∧
    pairs = db'.gitCoChanges.rows.filter fun row => row.1.1 = m.1 ∨ row.1.2 = m.1) ?_ ?_
  · refine Writes.query fun pairs hpairs => ⟨rfl, ?_⟩
    exact (Option.some_inj.mp hpairs).symm
  rintro pairs db'' ⟨rfl, rfl⟩
  refine Writes.pure ⟨rfl, ?_⟩
  rw [List.filter_filter]
  congr 2
  refine List.filter_congr fun row _ => ?_
  simp [Bool.and_comm]

/-- The rows of all superseded paths. -/
theorem writes_read (targets : List Move) : Writes (Prog.fold readMove ([], []) targets) b () db fun read db' =>
    db' = db ∧ read = (movedFileRows db targets, movedPairRows db targets) := by
  refine Writes.fold (I := fun done read db' => db' = db ∧ read = (movedFileRows db done, movedPairRows db done))
    ⟨rfl, rfl⟩ ?_
  rintro done m read db' ⟨rfl, rfl⟩
  refine (writes_readMove _ m).mono ?_
  rintro read db'' ⟨rfl, rfl⟩
  refine ⟨rfl, Prod.ext ?_ ?_⟩
  · rw [movedFileRows, movedFileRows, List.filterMap_append, List.filterMap_cons, List.filterMap_nil]
    cases db''.gitFiles.lookup m.1 <;> rfl
  · rw [movedPairRows, movedPairRows, List.foldl_append]
    rfl

theorem isMoved_concat (done : List Move) (m : Move) (path : String) :
    isMoved (done ++ [m]) path = (isMoved done path || decide (path = m.1)) := by
  rw [Bool.eq_iff_iff, isMoved_iff, Bool.or_eq_true, isMoved_iff, decide_eq_true_eq, List.map_append, List.mem_append,
    List.map_singleton, List.mem_singleton]

/-- What the deletions leave. -/
structure Cleared (targets : List Move) (db db' : Database) : Prop where
  files : ∀ path, db'.gitFiles.lookup path = if isMoved targets path then none else db.gitFiles.lookup path
  pairs : ∀ pair, db'.gitCoChanges.lookup pair = if touched targets pair then none else db.gitCoChanges.lookup pair
  events : db'.authorEvents = db.authorEvents

theorem writes_delete (targets : List Move) : Writes (Prog.each deleteMove targets) b () db fun _ db' =>
    Cleared targets db db' := by
  refine Writes.each (I := fun done db' => Cleared done db db') ⟨fun path => rfl, fun pair => rfl, rfl⟩ ?_
  intro done m db' hcleared
  refine Writes.bind (R := fun _ db'' =>
    db'' = { db' with gitFiles := db'.gitFiles.deleteWhere fun path => path = m.1 }) ?_ ?_
  · exact Writes.execute fun db'' h => (Option.some_inj.mp h).symm
  rintro - db'' rfl
  refine Writes.execute fun db'' h => ?_
  cases h
  constructor
  · intro path
    simp only [Table.lookup_deleteWhere, hcleared.files, isMoved_concat]
    cases isMoved done path <;> cases decide (path = m.1) <;> rfl
  · intro pair
    simp only [Table.lookup_deleteWhere, hcleared.pairs, touched, isMoved_concat]
    by_cases h₁ : isMoved done pair.1 = true <;> by_cases h₂ : isMoved done pair.2 = true <;> simp [h₁, h₂]
  · exact hcleared.events

end Reading

section Writing

variable {targets : List Move} {b : Database} {db : Database}

theorem writes_files (rows : List (String × GitFileRow)) : Writes (Prog.each (writeFile targets) rows) b () db
    fun _ db' => db' = rows.foldl (moveFile targets) db := by
  refine Writes.each (I := fun done db' => db' = done.foldl (moveFile targets) db) rfl ?_
  rintro done row db' rfl
  rw [writeFile]
  split
  · rename_i target htarget
    refine Writes.execute fun db'' h => ?_
    cases h
    rw [List.foldl_append, List.foldl_cons, List.foldl_nil, moveFile, htarget]
  · rename_i htarget
    refine Writes.pure ?_
    rw [List.foldl_append, List.foldl_cons, List.foldl_nil, moveFile, htarget]

/-- Both statements of a merge. -/
theorem writes_mergePair {a c : String} (hne : a ≠ c) (w : CoChangeWrite) : Writes (mergePair a c w) b () db
    fun _ db' => db'.gitFiles = db.gitFiles ∧ db'.authorEvents = db.authorEvents ∧
      ∀ k, db'.gitCoChanges.lookup k = (db.gitCoChanges.put (ordered (a, c)) (mergedRow w)).lookup k := by
  rw [mergePair, orderCoChangePair_of_ne hne]
  simp only
  refine Writes.bind writes_prepare ?_
  rintro - db' rfl
  refine Writes.bind (R := fun mask db'' =>
    mask = (upsertedRow w (db'.gitCoChanges.lookup (ordered (a, c)))).windowMask ∧
    db'' = { db' with
      gitCoChanges := db'.gitCoChanges.insert (ordered (a, c))
        (upsertedRow w (db'.gitCoChanges.lookup (ordered (a, c)))) }) ?_ ?_
  · refine Writes.statement fun mask db'' h => ?_
    cases h
    exact ⟨rfl, rfl⟩
  rintro mask db'' ⟨rfl, rfl⟩
  refine Writes.bind writes_prepare ?_
  rintro - db'' rfl
  refine Writes.execute fun db'' h => ?_
  cases h
  refine ⟨rfl, rfl, fun k => ?_⟩
  rw [Table.lookup_mapRows, lookup_insert, Table.lookup_put]
  by_cases hk : k = ordered (a, c)
  · simp only [if_pos hk, Option.map_some]
    cases db'.gitCoChanges.lookup (ordered (a, c)) <;> rfl
  · simp only [if_neg hk]
    cases db'.gitCoChanges.lookup k <;> rfl

/-- Where a pair row is written: nowhere when its ends meet. -/
def landed (moves : List Move) (pair : String × String) : Option (String × String) :=
  match moved moves pair.1, moved moves pair.2 with
  | some a, some c => if a ≠ c then some (ordered (a, c)) else none
  | _, _ => none

/-- The pair rows with the keys they are written under. -/
def landedRows (moves : List Move) (rows : List ((String × String) × CoChangeRow)) :
    List ((String × String) × CoChangeRow) :=
  rows.filterMap fun row => (landed moves row.1).map fun q => (q, row.2)

theorem writes_pairs (rows : List ((String × String) × CoChangeRow)) :
    Writes (Prog.each (writePair targets) rows) b () db fun _ db' => db'.gitFiles = db.gitFiles ∧
      db'.authorEvents = db.authorEvents ∧ ∀ k, db'.gitCoChanges.lookup k =
        (Table.putAll (fun row => mergedRow row.write) db.gitCoChanges (landedRows targets rows)).lookup k := by
  refine Writes.each (I := fun done (db' : Database) => db'.gitFiles = db.gitFiles ∧
    db'.authorEvents = db.authorEvents ∧ ∀ k, db'.gitCoChanges.lookup k =
      (Table.putAll (fun row => mergedRow row.write) db.gitCoChanges (landedRows targets done)).lookup k)
    ⟨rfl, rfl, fun k => rfl⟩ ?_
  rintro done row db' ⟨hfiles, hevents, hpairs⟩
  have hconcat : landedRows targets (done ++ [row]) =
      landedRows targets done ++ ((landed targets row.1).map fun q => (q, row.2)).toList := by
    rw [landedRows, List.filterMap_append, List.filterMap_cons, List.filterMap_nil]
    cases landed targets row.1 <;> rfl
  have hskip : landed targets row.1 = none → db'.gitFiles = db.gitFiles ∧ db'.authorEvents = db.authorEvents ∧
      ∀ k, db'.gitCoChanges.lookup k = (Table.putAll (fun row => mergedRow row.write) db.gitCoChanges
        (landedRows targets (done ++ [row]))).lookup k := by
    intro hnone
    rw [hconcat, hnone]
    exact ⟨hfiles, hevents, by simpa using hpairs⟩
  rw [writePair]
  split
  · rename_i a c ha hc
    split
    · rename_i hne
      have hlanded : landed targets row.1 = some (ordered (a, c)) := by
        rw [landed, ha, hc]
        exact if_pos hne
      refine (writes_mergePair hne row.2.write).mono ?_
      rintro - db'' ⟨hfiles', hevents', hpairs'⟩
      refine ⟨hfiles'.trans hfiles, hevents'.trans hevents, fun k => ?_⟩
      rw [hpairs', hconcat, hlanded, Option.map_some, Option.toList_some, Table.putAll_concat, Table.lookup_put,
        Table.lookup_put, hpairs, hpairs]
    · rename_i hmeet
      refine Writes.pure (hskip ?_)
      rw [landed, ha, hc]
      exact if_neg hmeet
  · rename_i hnot
    refine Writes.pure (hskip ?_)
    rw [landed]
    split
    · rename_i a c ha hc
      exact absurd hc (hnot a c ha)
    · rfl

end Writing

section Events

variable {b : Database} {db : Database}

/-- The first event written under a key stays. -/
theorem foldl_getD {ν : Type} (rows : List ((String × String) × ν)) (old : Option ν) :
    rows.foldl (fun old row => some (old.getD row.2)) old = (old.toList ++ rows.map Prod.snd).head? := by
  induction rows generalizing old with
  | nil => cases old <;> rfl
  | cons row rows ih =>
    rw [List.foldl_cons, ih]
    cases old <;> rfl

theorem movedEvents_to (moves : List Move) (db : Database) (q sha : String) :
    ((movedEvents db moves).filter fun e => e.1 = (q, sha)).map Prod.snd =
      (moves.filter fun m => m.2 = some q).filterMap fun m => db.authorEvents.lookup (m.1, sha) := by
  rw [movedEvents]
  induction moves with
  | nil => rfl
  | cons m moves ih =>
    obtain ⟨source, target⟩ := m
    rw [List.flatMap_cons, List.filter_append, List.map_append, ih]
    cases target with
    | none => rfl
    | some target =>
      have hkey : ∀ e : (String × String) × AuthorEvent,
          (decide (e.1.1 = source) && decide ((target, e.1.2) = (q, sha))) =
            (decide (target = q) && decide (e.1 = (source, sha))) := by
        rintro ⟨⟨p, sha'⟩, event⟩
        rw [Bool.eq_iff_iff]
        simp only [Bool.and_eq_true, decide_eq_true_eq, Prod.mk.injEq]
        tauto
      simp only [List.filter_map, List.filter_filter, Function.comp_def, Bool.and_comm (decide (_ = (q, sha))), hkey]
      by_cases htarget : target = q
      · rw [List.filter_cons_of_pos (by simpa using htarget)]
        simp only [htarget, decide_true, Bool.true_and, Table.rows_filter_key]
        rw [List.filterMap_cons]
        cases db.authorEvents.lookup (source, sha) <;> rfl
      · rw [List.filter_cons_of_neg (by simpa using htarget)]
        simp [htarget]

theorem writes_events (moves : List Move) : Writes (rekeyEvents moves) b () db fun _ db' =>
    db'.gitFiles = db.gitFiles ∧ db'.gitCoChanges = db.gitCoChanges ∧
      ∀ q sha, db'.authorEvents.lookup (q, sha) = (eventsTo moves db q sha).head? := by
  refine Writes.bind writes_prepare ?_
  rintro - db rfl
  refine Writes.bind (R := fun read db' => db' = db ∧ read = movedEvents db moves) ?_ ?_
  · refine Writes.fold (I := fun done read db' => db' = db ∧ read = movedEvents db done) ⟨rfl, rfl⟩ ?_
    rintro done m read db' ⟨rfl, rfl⟩
    have hconcat : movedEvents db' (done ++ [m]) = movedEvents db' done ++ movedEvents db' [m] := List.flatMap_append
    rw [hconcat, readEvents]
    split
    · rename_i hnone
      refine Writes.pure ⟨rfl, ?_⟩
      simp [movedEvents, hnone]
    · rename_i target htarget
      refine Writes.bind (R := fun events db'' => db'' = db' ∧
        events = db'.authorEvents.rows.filter fun e => e.1.1 = m.1) ?_ ?_
      · refine Writes.query fun events hevents => ⟨rfl, ?_⟩
        exact (Option.some_inj.mp hevents).symm
      rintro events db'' ⟨rfl, rfl⟩
      refine Writes.pure ⟨rfl, ?_⟩
      simp [movedEvents, htarget]
  rintro events db' ⟨rfl, rfl⟩
  refine Writes.bind writes_prepare ?_
  rintro - db rfl
  refine Writes.bind (R := fun _ (db' : Database) => db'.gitFiles = db.gitFiles ∧ db'.gitCoChanges = db.gitCoChanges ∧
    ∀ key, db'.authorEvents.lookup key = if isMoved moves key.1 then none else db.authorEvents.lookup key) ?_ ?_
  · refine Writes.each (I := fun done (db' : Database) => db'.gitFiles = db.gitFiles ∧
      db'.gitCoChanges = db.gitCoChanges ∧
      ∀ key, db'.authorEvents.lookup key = if isMoved done key.1 then none else db.authorEvents.lookup key)
      ⟨rfl, rfl, fun key => rfl⟩ ?_
    rintro done m db' ⟨hfiles, hpairs, hevents⟩
    refine Writes.execute fun db'' hdb => ?_
    cases hdb
    refine ⟨hfiles, hpairs, fun key => ?_⟩
    simp only [Table.lookup_deleteWhere, hevents, isMoved_concat]
    cases isMoved done key.1 <;> cases decide (key.1 = m.1) <;> rfl
  rintro - db₁ ⟨hfiles, hpairs, hevents⟩
  refine Writes.bind writes_prepare ?_
  rintro - db₂ rfl
  refine (Writes.each (I := fun done (db' : Database) => db'.gitFiles = db₂.gitFiles ∧
    db'.gitCoChanges = db₂.gitCoChanges ∧ db'.authorEvents =
      Table.putAll (fun event old => old.getD event) db₂.authorEvents done) ⟨rfl, rfl, rfl⟩ ?_).mono ?_
  · rintro done e db' ⟨hfiles', hpairs', hevents'⟩
    refine Writes.execute fun db'' hdb => ?_
    cases hdb
    exact ⟨hfiles', hpairs', by rw [Table.putAll_concat, hevents']⟩
  · rintro - db' ⟨hfiles', hpairs', hevents'⟩
    refine ⟨hfiles'.trans hfiles, hpairs'.trans hpairs, fun q sha => ?_⟩
    rw [hevents', Table.lookup_putAll, foldl_getD, hevents, movedEvents_to]
    rfl

end Events

section Assembled

variable {moves targets : List Move} {b : Database} {db : Database}

theorem moved_perm_eq (hkeys : (moves.map Prod.fst).Nodup) (hperm : targets.Perm moves) (path : String) :
    moved targets path = moved moves path := by
  have hkeys' : (targets.map Prod.fst).Nodup := (hperm.map _).nodup_iff.mpr hkeys
  by_cases hmem : path ∈ targets.map Prod.fst
  · obtain ⟨m, hm, rfl⟩ := List.mem_map.mp hmem
    rw [moved_of_mem hkeys' hm, moved_of_mem hkeys (hperm.mem_iff.mp hm)]
  · have hnot : isMoved targets path = false := by
      rwa [← Bool.not_eq_true, isMoved_iff]
    have hnot' : isMoved moves path = false := by
      rwa [← Bool.not_eq_true, isMoved_iff, ← (hperm.map _).mem_iff]
    rw [moved_of_not_isMoved hnot, moved_of_not_isMoved hnot']

theorem isMoved_perm (hperm : targets.Perm moves) (path : String) : isMoved targets path = isMoved moves path := by
  rw [Bool.eq_iff_iff, isMoved_iff, isMoved_iff, (hperm.map _).mem_iff]

theorem landed_eq_some {pair q : String × String} :
    landed moves pair = some q ↔ movedPair moves pair = some q ∧ textLt q.1 q.2 := by
  rw [movedPair_eq_some]
  unfold landed
  split
  · rename_i a c ha hc
    split
    · rename_i hne
      constructor
      · rintro ⟨⟩
        exact ⟨⟨a, c, ha, hc, rfl⟩, ordered_lt hne⟩
      · rintro ⟨⟨a', c', ha', hc', rfl⟩, -⟩
        rw [Option.some_inj.mp (ha.symm.trans ha'), Option.some_inj.mp (hc.symm.trans hc')]
    · rename_i hmeet
      rw [not_not] at hmeet
      constructor
      · exact nofun
      · rintro ⟨⟨a', c', ha', hc', rfl⟩, hlt⟩
        rw [← Option.some_inj.mp (ha.symm.trans ha'), ← Option.some_inj.mp (hc.symm.trans hc'), hmeet] at hlt
        unfold ordered at hlt
        split at hlt <;> exact absurd rfl (textLt_ne hlt)
  · rename_i hnot
    constructor
    · exact nofun
    · rintro ⟨⟨a, c, ha, hc, -⟩, -⟩
      exact absurd hc (hnot a c ha)

theorem landed_of_not_touched {pair : String × String} (h : touched moves pair = false) (hlt : textLt pair.1 pair.2) :
    landed moves pair = some pair := by
  rw [touched, Bool.or_eq_false_iff] at h
  rw [landed, moved_of_not_isMoved h.1, moved_of_not_isMoved h.2]
  simp only [if_pos (textLt_ne hlt)]
  exact congrArg some (ordered_of_lt hlt).1

/-- After the deletions and the rows written back, the file rows are the substituted ones. -/
theorem files_substituted (hkeys : (moves.map Prod.fst).Nodup) (hperm : targets.Perm moves) {db₁ : Database}
    (hcleared : Cleared targets db db₁) (q : String) :
    ((movedFileRows db targets).foldl (moveFile targets) db₁).gitFiles.lookup q =
      fileTotal ((rowsTo moves db q).map Prod.snd) := by
  have hkeys' : (targets.map Prod.fst).Nodup := (hperm.map _).nodup_iff.mpr hkeys
  have hmoved : moved targets = moved moves := funext (moved_perm_eq hkeys hperm)
  have hperm := Table.rows_to_perm (F := moved targets) (@nodup_movedFileRows db targets hkeys')
    (fun path row => mem_movedFileRows) (fun path row _ hnot => moved_of_not_isMoved hnot) q
  rw [foldl_moveFile, Table.lookup_putAll, hcleared.files, rowsTo, ← hmoved, ← fileTotal_perm hperm, ← foldl_fileRow,
    List.foldl_map]

/-- A row goes to the pair `q` whose paths come in order. -/
theorem pairRowsTo_eq (hkeys : (moves.map Prod.fst).Nodup) (hperm : targets.Perm moves) {q : String × String}
    (hlt : textLt q.1 q.2) :
    (db.gitCoChanges.rows.filter fun row => landed targets row.1 = some q) = pairRowsTo moves db q := by
  have hmoved : moved targets = moved moves := funext (moved_perm_eq hkeys hperm)
  refine List.filter_congr fun row _ => ?_
  rw [decide_eq_decide, landed_eq_some, movedPair, movedPair, hmoved]
  exact and_iff_left hlt

theorem touched_perm (hperm : targets.Perm moves) : touched targets = touched moves := by
  funext pair
  rw [touched, touched, isMoved_perm hperm, isMoved_perm hperm]

theorem pairs_substituted (hkeys : (moves.map Prod.fst).Nodup) (hperm : targets.Perm moves) (hord : PairsOrdered db)
    {pairs : Table (String × String) CoChangeRow}
    (hcleared : ∀ pair, pairs.lookup pair = if touched targets pair then none else db.gitCoChanges.lookup pair)
    {q : String × String} (hlt : textLt q.1 q.2) :
    (Table.putAll (fun row => mergedRow row.write) pairs (landedRows targets (movedPairRows db targets))).lookup q =
      if (pairRowsTo moves db q).any fun row => touched moves row.1 then
        pairTotal ((pairRowsTo moves db q).map Prod.snd)
      else ((pairRowsTo moves db q).map Prod.snd).head? := by
  obtain ⟨hnodup, hmem⟩ := @movedPairRows_spec db targets
  have hall := Table.rows_to_perm (F := landed targets) (p := touched targets) hnodup hmem
    (fun pair row hpair hnot => landed_of_not_touched hnot (hord pair row hpair)) q
  have hwritten := Table.written_perm (F := landed targets) (p := touched targets) hnodup hmem q
  rw [pairRowsTo_eq hkeys hperm hlt] at hall hwritten
  rw [Table.lookup_putAll, hcleared, ← touched_perm hperm]
  have hfold := foldl_mergedRow (((landedRows targets (movedPairRows db targets)).filter fun row => row.1 = q).map
    Prod.snd) (if touched targets q then none else db.gitCoChanges.lookup q)
  rw [List.foldl_map] at hfold
  rw [hfold]
  by_cases hnil : ((landedRows targets (movedPairRows db targets)).filter fun row => row.1 = q).map Prod.snd = []
  · -- no row was written here
    have hnone : ¬((pairRowsTo moves db q).any fun row => touched targets row.1) = true := by
      unfold landedRows at hnil
      rw [hnil] at hwritten
      have hfilter := List.map_eq_nil_iff.mp hwritten.nil_eq.symm
      rw [List.any_eq_true]
      rintro ⟨row, hrow, htouched⟩
      exact List.filter_eq_nil_iff.mp hfilter row hrow htouched
    rw [if_pos hnil, if_neg hnone]
    unfold landedRows at hnil
    rw [hnil, List.append_nil] at hall
    cases hstay : (if touched targets q then none else db.gitCoChanges.lookup q) with
    | none =>
      rw [hstay] at hall
      rw [← hall.nil_eq]
      rfl
    | some row =>
      rw [hstay] at hall
      rw [← List.singleton_perm.mp hall]
      rfl
  · have hsome : ((pairRowsTo moves db q).any fun row => touched targets row.1) = true := by
      by_contra hnone
      refine hnil ?_
      have hfilter : (pairRowsTo moves db q).filter (fun row => touched targets row.1) = [] := by
        refine List.filter_eq_nil_iff.mpr fun row hrow htouched => hnone ?_
        exact List.any_eq_true.mpr ⟨row, hrow, htouched⟩
      rw [hfilter] at hwritten
      exact hwritten.eq_nil
    rw [if_neg hnil, if_pos hsome]
    exact pairTotal_perm hall

theorem landedRows_ordered {rows : List ((String × String) × CoChangeRow)} {row : (String × String) × CoChangeRow}
    (h : row ∈ landedRows targets rows) : textLt row.1.1 row.1.2 := by
  obtain ⟨row', -, hrow⟩ := List.mem_filterMap.mp h
  obtain ⟨q, hq, rfl⟩ := Option.map_eq_some_iff.mp hrow
  exact (landed_eq_some.mp hq).2

/-- All statements of the re-keying, in whatever order the superseded paths come. -/
theorem writes_rekeyInner (hkeys : (moves.map Prod.fst).Nodup) (hperm : targets.Perm moves) (hord : PairsOrdered db) :
    Writes (rekeyInner targets moves) b () db fun _ db' => Substituted moves db db' := by
  refine Writes.bind writes_prepare ?_
  rintro - db rfl
  refine Writes.bind (writes_read targets) ?_
  rintro read db ⟨rfl, rfl⟩
  refine Writes.bind writes_prepare ?_
  rintro - db rfl
  refine Writes.bind writes_prepare ?_
  rintro - db rfl
  refine Writes.bind (writes_delete targets) ?_
  rintro - db₁ hcleared
  refine Writes.bind (writes_files _) ?_
  rintro - db₂ rfl
  refine Writes.bind (writes_pairs _) ?_
  rintro - db₃ ⟨hfiles, hevents, hpairs⟩
  refine (writes_events moves).mono ?_
  rintro - db₄ ⟨hfiles', hpairs', hevents'⟩
  have hstay : ((movedFileRows db targets).foldl (moveFile targets) db₁).gitCoChanges = db₁.gitCoChanges := by
    rw [foldl_moveFile]
  have hkept : db₃.authorEvents = db.authorEvents := by
    rw [hevents, foldl_moveFile]
    exact hcleared.events
  refine ⟨fun q => ?_, fun q hlt => ?_, fun pair row hrow => ?_, fun q sha => ?_⟩
  · rw [hfiles', hfiles]
    exact files_substituted hkeys hperm hcleared q
  · rw [hpairs', hpairs, hstay]
    exact pairs_substituted hkeys hperm hord hcleared.pairs hlt
  · rw [hpairs', hpairs, hstay] at hrow
    by_cases hmem : pair ∈ (landedRows targets (movedPairRows db targets)).map Prod.fst
    · obtain ⟨row', hrow', rfl⟩ := List.mem_map.mp hmem
      exact landedRows_ordered hrow'
    · rw [Table.lookup_putAll_of_notMem hmem, hcleared.pairs] at hrow
      split at hrow
      · cases hrow
      · exact hord pair row hrow
  · rw [hevents', eventsTo, eventsTo, hkept]

end Assembled

/-! ## Runs -/

section Definite

theorem definite_prepare : Definite prepare := Definite.query fun _ => ()

theorem definite_readMove (read : ReadRows) (m : Move) : Definite (readMove read m) :=
  (Definite.query _).bind fun _ => (Definite.query _).bind fun _ => Definite.pure

theorem definite_deleteMove (m : Move) : Definite (deleteMove m) :=
  (Definite.execute _).bind fun _ => Definite.execute _

theorem definite_writeFile (targets : List Move) (row : String × GitFileRow) : Definite (writeFile targets row) := by
  unfold writeFile
  split
  · exact Definite.execute _
  · exact Definite.pure

theorem definite_writePair (targets : List Move) (row : (String × String) × CoChangeRow) :
    Definite (writePair targets row) := by
  unfold writePair
  split
  · split
    · rename_i hne
      rw [mergePair, orderCoChangePair_of_ne hne]
      refine definite_prepare.bind fun _ => ?_
      refine (Definite.statement fun _ => rfl).bind fun _ => ?_
      exact definite_prepare.bind fun _ => Definite.execute _
    · exact Definite.pure
  · exact Definite.pure

theorem definite_readEvents (read : List ((String × String) × AuthorEvent)) (m : Move) :
    Definite (readEvents read m) := by
  unfold readEvents
  split
  · exact Definite.pure
  · exact (Definite.query _).bind fun _ => Definite.pure

theorem definite_rekeyEvents (moves : List Move) : Definite (rekeyEvents moves) := by
  refine definite_prepare.bind fun _ => ?_
  refine (Definite.fold definite_readEvents moves []).bind fun _ => ?_
  refine definite_prepare.bind fun _ => ?_
  refine (Definite.fold (fun _ _ => Definite.execute _) moves ()).bind fun _ => ?_
  exact definite_prepare.bind fun _ => Definite.fold (fun _ _ => Definite.execute _) _ ()

/-- None of the statements can fail of itself. -/
theorem definite_rekeyInner (targets moves : List Move) : Definite (rekeyInner targets moves) := by
  refine definite_prepare.bind fun _ => ?_
  refine (Definite.fold definite_readMove targets _).bind fun _ => ?_
  refine definite_prepare.bind fun _ => definite_prepare.bind fun _ => ?_
  refine (Definite.fold (fun _ m => definite_deleteMove m) targets ()).bind fun _ => ?_
  refine (Definite.fold (fun _ row => definite_writeFile targets row) _ ()).bind fun _ => ?_
  refine (Definite.fold (fun _ row => definite_writePair targets row) _ ()).bind fun _ => ?_
  exact definite_rekeyEvents moves

end Definite

/-- The same rows in every table. -/
structure SameHistory (db db' : Database) : Prop where
  files : ∀ path, db'.gitFiles.lookup path = db.gitFiles.lookup path
  pairs : ∀ pair, db'.gitCoChanges.lookup pair = db.gitCoChanges.lookup pair
  events : ∀ key, db'.authorEvents.lookup key = db.authorEvents.lookup key

/-- A re-keying that returns has substituted the paths; one that fails has left the store as it was. -/
def Rekeyed (moves : List Move) (s : Session Database Unit)
    (r : Except Fault Unit × World (Session Database Unit) Fault) : Prop :=
  Post (fun _ s' => ∃ db', Substituted moves s.current db' ∧ s' = s.setCurrent db')
    (fun _ s' => SameHistory s.current s'.current ∨ s' = s.rollback) r

section Runs

variable {moves targets : List Move} {s : Session Database Unit}

theorem Undone.same {s' : Session Database Unit} (h : Undone s s') :
    SameHistory s.current s'.current ∨ s' = s.rollback := by
  rcases h with rfl | rfl | rfl
  · exact .inl ⟨fun _ => rfl, fun _ => rfl, fun _ => rfl⟩
  · exact .inl ⟨fun _ => rfl, fun _ => rfl, fun _ => rfl⟩
  · exact .inr rfl

/-- What the substitution leaves is determined by the moves alone, not by the order they are taken in. -/
theorem Substituted.same {db db₁ db₂ : Database} (h₁ : Substituted moves db db₁) (h₂ : Substituted moves db db₂) :
    SameHistory db₁ db₂ := by
  refine ⟨fun path => ?_, fun pair => ?_, fun key => ?_⟩
  · rw [h₁.files, h₂.files]
  · by_cases hlt : textLt pair.1 pair.2
    · rw [h₁.pairs pair hlt, h₂.pairs pair hlt]
    · have hnone : ∀ {db' : Database}, PairsOrdered db' → db'.gitCoChanges.lookup pair = none := fun hord =>
        Option.eq_none_iff_forall_ne_some.mpr fun row hrow => hlt (hord pair row hrow)
      rw [hnone h₁.ordered, hnone h₂.ordered]
  · rw [h₁.events key.1 key.2, h₂.events key.1 key.2]

theorem Substituted.congr {db db₁ db₂ : Database} (h : Substituted moves db db₁) (hsame : SameHistory db₂ db₁) :
    Substituted moves db db₂ where
  files q := by rw [← hsame.files, h.files]
  pairs q hlt := by rw [← hsame.pairs, h.pairs q hlt]
  ordered pair row hrow := h.ordered pair row (by rw [hsame.pairs, hrow])
  events q sha := by rw [← hsame.events, h.events]

theorem substituted_nil {db : Database} (hord : PairsOrdered db) : Substituted [] db db := by
  refine ⟨fun q => ?_, fun q hlt => ?_, hord, fun q sha => ?_⟩
  · have hrows : rowsTo [] db q = db.gitFiles.rows.filter fun row => row.1 = q :=
      List.filter_congr fun row _ => by rw [decide_eq_decide]; exact Option.some_inj
    rw [hrows, Table.rows_filter_key]
    cases db.gitFiles.lookup q with
    | none => rfl
    | some row => exact (fileTotal_singleton row).symm
  · have hrows : pairRowsTo [] db q = db.gitCoChanges.rows.filter fun row => row.1 = q := by
      refine List.filter_congr fun row hrow => ?_
      have hmoved : movedPair [] row.1 = some (ordered (row.1.1, row.1.2)) := rfl
      rw [hmoved, (ordered_of_lt (hord row.1 row.2 (Table.mem_rows.mp hrow))).1, decide_eq_decide]
      exact Option.some_inj
    have hnone : ¬((pairRowsTo [] db q).any fun row => touched [] row.1) = true := by
      simp [touched, isMoved]
    rw [if_neg hnone, hrows, Table.rows_filter_key]
    cases db.gitCoChanges.lookup q <;> rfl
  · rw [eventsTo]
    cases db.authorEvents.lookup (q, sha) <;> simp [isMoved]

/-- Every run substitutes all paths at once or leaves the store as it was, unless the one statement refused is
the `RELEASE` after a body of `n` statements. Then the rows stay substituted in a savepoint left open. -/
theorem rekey_git_history_substitutes_iff (hkeys : (moves.map Prod.fst).Nodup) (hperm : targets.Perm moves)
    (hord : PairsOrdered s.current) :
    (∀ db₁ db₂, Substituted moves s.current db₁ → Substituted moves s.current db₂ → SameHistory db₁ db₂) ∧
      ∃ n s₁, Calls (rekeyInner targets moves) s.opened n () s₁ ∧ ∀ faults,
        Rekeyed moves s (rekeySql targets moves ⟨s, faults⟩) ↔
          (RefusedAt (1 + n) faults → Substituted moves s.current s.current) := by
  refine ⟨fun _ _ => Substituted.same, ?_⟩
  obtain ⟨n, ⟨⟩, s₁, hcalls⟩ := definite_rekeyInner targets moves s.opened
  refine ⟨n, s₁, hcalls, fun faults => ?_⟩
  cases hmoves : moves.isEmpty with
  | true =>
    rw [List.isEmpty_iff] at hmoves
    subst hmoves
    have hnil := substituted_nil hord
    exact iff_of_true ⟨s.current, hnil, rfl⟩ fun _ => hnil
  | false =>
    have hsql : rekeySql targets moves = Db.savepoint (rekeyInner targets moves) := by
      rw [rekeySql, hmoves]
      rfl
    have hwrites := writes_rekeyInner (b := s.saved.getD s.current) hkeys hperm hord
    rw [hsql]
    by_cases hrefused : RefusedAt (1 + n) faults
    · obtain ⟨hclear, -⟩ := id hrefused
      rw [clear_add, Bool.and_eq_true] at hclear
      have hbody := hcalls (faults.drop 1)
      rw [if_pos hclear.2] at hbody
      obtain ⟨db', rfl, hsub⟩ := Ends.returned hwrites hbody
      obtain ⟨rest, hrun⟩ := run_savepoint_refused hcalls hrefused
      rw [hrun]
      constructor
      · rintro (hsame | hrollback) -
        · exact hsub.congr hsame
        · cases congrArg Session.saved hrollback
      · intro hself
        exact .inl (hself hrefused |>.same hsub)
    · refine iff_of_true ?_ fun h => absurd h hrefused
      have hpost := savepoint_released hcalls hwrites hrefused
      unfold Rekeyed Post at *
      split
      · rename_i hok
        rw [hok] at hpost
        exact hpost
      · rename_i e herr
        rw [herr] at hpost
        exact Undone.same hpost

theorem not_rekeyed {r : Except Fault Unit × World (Session Database Unit) Fault} {e : Fault} {path : String}
    (herror : r.1 = .error e) (hsaved : r.2.state.saved.isSome = true)
    (hrow : r.2.state.current.gitFiles.lookup path ≠ s.current.gitFiles.lookup path) : ¬Rekeyed moves s r := by
  intro h
  unfold Rekeyed Post at h
  rw [herror] at h
  rcases h with hsame | hrollback
  · exact hrow (hsame.files path)
  · rw [hrollback] at hsaved
    cases hsaved

end Runs

/-- Three files, two of them changed together. -/
def threeFiles : Session Database Unit where
  current := {
    gitFiles := ((Table.put ∅ "a" fun _ => ⟨1, 2, some 10⟩).put "b" fun _ => ⟨0, 3, some 30⟩).put "c"
      fun _ => ⟨4, 5, none⟩
    gitCoChanges := Table.put ∅ ("a", "b") fun _ => ⟨7, some 10, some 5, 3, 2⟩
    authorEvents := ∅ }
  saved := none
  memory := ()

/-- Two files trade places and a third one joins them; the paths are taken in another order. -/
theorem rekey_git_history_substitutes_iff_swapped :
    let moves := [("a", some "b"), ("b", some "a"), ("c", some "b")]
    (∀ db₁ db₂, Substituted moves threeFiles.current db₁ → Substituted moves threeFiles.current db₂ →
      SameHistory db₁ db₂) ∧
      ∃ n s₁, Calls (rekeyInner moves.reverse moves) threeFiles.opened n () s₁ ∧ ∀ faults,
        Rekeyed moves threeFiles (rekeySql moves.reverse moves ⟨threeFiles, faults⟩) ↔
          (RefusedAt (1 + n) faults → Substituted moves threeFiles.current threeFiles.current) := by
  refine rekey_git_history_substitutes_iff (by decide) (List.reverse_perm _) ?_
  intro pair row hrow
  have hpair : pair = ("a", "b") := by
    have hlookup : threeFiles.current.gitCoChanges.lookup pair =
        if pair = ("a", "b") then some ⟨7, some 10, some 5, 3, 2⟩ else none := Table.lookup_put _ _ _ _
    rw [hlookup] at hrow
    split at hrow
    · assumption
    · cases hrow
  subst hpair
  decide

/-- All 13 statements of the body go through and the `RELEASE` is refused: the call fails, and the row of `a`
is gone. -/
theorem refused_release_keeps_substitution : ¬Rekeyed [("a", some "b")] threeFiles
    (rekeySql [("a", some "b")] [("a", some "b")] ⟨threeFiles, List.replicate 14 none ++ [some .statement]⟩) :=
  @not_rekeyed _ _ _ .statement "a" (by decide +kernel) (by decide +kernel) (by decide +kernel)

end Git
end CodeSage
