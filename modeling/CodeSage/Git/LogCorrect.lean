import CodeSage.Git.Log

/-!
# CodeSage.Git.LogCorrect

`parse_log` against the format `run_git_log` asks for. `Listed` is a commit as git lists it and `render` the
text of a listing, with newlines and blank records where git may put them. Each kind of record has one
lemma that says how the loop goes on behind it; a listing read to its end is the commits whose timestamp
parses, and a record that belongs to neither kind stops the loop when its first field is no count.
-/

namespace CodeSage
namespace Git
namespace Log

open Lib

/-- The NUL between records. -/
def NUL : Char := '\x00'

/-- One file of a commit: its counts unless it is binary, the path it was renamed from, its path. -/
structure Entry where
  counts : Option (UInt32 × UInt32)
  renamedFrom : Option String
  path : String
  deriving DecidableEq, Repr

/-- A path a numstat record can hold. -/
def ValidPath (path : String) : Prop := path ≠ "" ∧ NUL ∉ path.toList

structure Entry.Valid (e : Entry) : Prop where
  path : ValidPath e.path
  renamedFrom : ∀ old, e.renamedFrom = some old → ValidPath old

/-- The `%ct` field. -/
inductive Stamp where
  | epoch (seconds : Int)
  | garbled (text : Text)
  deriving DecidableEq, Repr

/-- What stands before a record: blank records, then newlines of its own. -/
structure Lead where
  blanks : List Nat
  newlines : Nat
  deriving DecidableEq, Repr

structure Listed where
  lead : Lead
  sha : String
  stamp : Stamp
  email : Text
  name : Text
  subject : Text
  entries : List (Lead × Entry)
  deriving DecidableEq, Repr

def Stamp.render : Stamp → Text
  | .epoch seconds => if seconds < 0 then '-' :: decimal seconds.natAbs else decimal seconds.natAbs
  | .garbled text => text

/-- An `i64`, or a field that is none. -/
def Stamp.Valid : Stamp → Prop
  | .epoch seconds => -2 ^ 63 ≤ seconds ∧ seconds < 2 ^ 63
  | .garbled text => '\t' ∉ text ∧ NUL ∉ text ∧ parseI64 text = none

structure Listed.Valid (c : Listed) : Prop where
  sha : '\t' ∉ c.sha.toList ∧ NUL ∉ c.sha.toList
  stamp : c.stamp.Valid
  email : '\x1f' ∉ c.email ∧ NUL ∉ c.email
  name : '\x1f' ∉ c.name ∧ NUL ∉ c.name
  subject : NUL ∉ c.subject
  entries : ∀ e ∈ c.entries, e.2.Valid

/-! ## The listing as text -/

def breaks (n : Nat) : Text := List.replicate n '\n'

/-- The records before a record, and the newlines it begins with. -/
def Lead.before (lead : Lead) (records : Text → List Text) : List Text :=
  lead.blanks.map breaks ++ records (breaks lead.newlines)

def Listed.header (c : Listed) : Text :=
  COMMIT ++ c.sha.toList ++ '\t' :: c.stamp.render ++ '\t' :: c.email ++ '\x1f' :: c.name
    ++ '\x1f' :: c.subject

def Entry.added (e : Entry) : Text := match e.counts with
  | some (added, _) => decimal added.toNat
  | none => ['-']

def Entry.deleted (e : Entry) : Text := match e.counts with
  | some (_, deleted) => decimal deleted.toNat
  | none => ['-']

/-- The records of a file; a rename leaves the path empty and appends both names. -/
def Entry.records (e : Entry) (start : Text) : List Text :=
  let counts := start ++ e.added ++ '\t' :: e.deleted ++ ['\t']
  match e.renamedFrom with
  | none => [counts ++ e.path.toList]
  | some old => [counts, old.toList, e.path.toList]

def Listed.records (c : Listed) : List Text :=
  c.lead.before (fun start => [start ++ c.header]) ++ c.entries.flatMap fun e => e.1.before e.2.records

/-- Every record ends in a NUL. -/
def render (commits : List Listed) : Text := (commits.flatMap Listed.records).flatMap (· ++ [NUL])

/-! ## The listing as commits -/

def Entry.change (e : Entry) : Option FileChange :=
  e.counts.map fun c => { path := e.path, added := c.1, deleted := c.2 }

def Entry.rename (e : Entry) : Option (String × String) := e.renamedFrom.map (·, e.path)

/-- The commit a listing stands for; none when its timestamp is garbled. -/
def Listed.commit (toLowercase : Text → Text) (c : Listed) : Option LogCommit :=
  match c.stamp with
  | .garbled _ => none
  | .epoch seconds => some {
      sha := c.sha, author := String.ofList ((normalizedAuthor toLowercase c.email c.name).getD []),
      timestamp := seconds, subject := c.subject,
      changes := c.entries.filterMap (·.2.change), renames := c.entries.filterMap (·.2.rename) }

section Fields

variable {sep : Char} {a b c : Text}

theorem splitn3_three (ha : sep ∉ a) (hb : sep ∉ b) : splitn3 sep (a ++ sep :: b ++ sep :: c) = (a, some (b, some c)) := by
  rw [splitn3, List.append_assoc, List.cons_append, splitOnce_append ha]
  simp only [splitOnce_append hb]

theorem parseI64_epoch {seconds : Int} (h : (Stamp.epoch seconds).Valid) :
    parseI64 (Stamp.epoch seconds).render = some seconds := by
  obtain ⟨hlow, hhigh⟩ := h
  rw [Stamp.render]
  split
  · rename_i hneg
    rw [parseI64, parseSigned, parseDigits_decimal, Option.bind_some, if_pos (by omega)]
    congr 1
    omega
  · rename_i hneg
    rw [parseI64, parseSigned_decimal (by omega)]
    congr 1
    omega

theorem notMem_decimal {n : Nat} {d : Char} (h : d.isDigit = false) : d ∉ decimal n := by
  intro hd
  rw [isDigit_decimal hd] at h
  cases h

theorem isNumstatCount_decimal (n : Nat) : isNumstatCount (decimal n) = true := by
  have hne : decimal n ≠ [] := Nat.toDigits_ne_nil
  simp only [isNumstatCount, Bool.or_eq_true, Bool.and_eq_true, Bool.not_eq_true', List.isEmpty_eq_false_iff,
    List.all_eq_true]
  exact .inr ⟨hne, fun d hd => isDigit_decimal hd⟩

theorem decimal_ne_dash (n : Nat) : decimal n ≠ ['-'] := by
  intro h
  exact notMem_decimal (by decide) (h ▸ List.mem_singleton_self '-' : '-' ∈ decimal n)

/-- Newlines before a record that starts with another character are stripped. -/
theorem dropWhile_breaks (n : Nat) {line : Text} (h : ∀ c cs, line = c :: cs → c ≠ '\n') :
    (breaks n ++ line).dropWhile (· = '\n') = line := by
  induction n with
  | zero =>
    cases line with
    | nil => rfl
    | cons c cs => simp [breaks, h c cs rfl]
  | succ n ih => simpa [breaks, List.replicate_succ] using ih

end Fields

section Records

variable (toLowercase : Text → Text)

theorem parseRecords_blank (n : Nat) (records : List Text) (current : Option LogCommit) :
    parseRecords toLowercase (breaks n :: records) current = parseRecords toLowercase records current := by
  have hline : (breaks n).dropWhile (· = '\n') = [] := by
    have := @dropWhile_breaks n [] (fun c cs h => by cases h)
    simpa using this
  rw [parseRecords]
  simp only [hline]
  rfl

theorem parseRecords_blanks (blanks : List Nat) (records : List Text) (current : Option LogCommit) :
    parseRecords toLowercase (blanks.map breaks ++ records) current = parseRecords toLowercase records current := by
  induction blanks with
  | nil => rfl
  | cons n blanks ih => rw [List.map_cons, List.cons_append, parseRecords_blank, ih]

/-- The commit a header opens, before its files. -/
def Listed.opened (c : Listed) : Option LogCommit :=
  (c.commit toLowercase).map fun commit => { commit with changes := [], renames := [] }

theorem parseHeader_header {c : Listed} (h : c.Valid) :
    parseHeader toLowercase (c.header.drop COMMIT.length) = c.opened toLowercase := by
  have hdrop : c.header.drop COMMIT.length = c.sha.toList ++ '\t' :: c.stamp.render ++ '\t' ::
      (c.email ++ '\x1f' :: c.name ++ '\x1f' :: c.subject) := by
    simp only [Listed.header, List.append_assoc, List.cons_append, List.drop_left]
  have hstamp : '\t' ∉ c.stamp.render := by
    have := h.stamp
    cases hs : c.stamp with
    | epoch seconds =>
      rw [Stamp.render]
      split
      · simp [notMem_decimal (show Char.isDigit '\t' = false by decide)]
      · exact notMem_decimal (by decide)
    | garbled text =>
      rw [hs] at this
      exact this.1
  have hauthor : authorAndSubject toLowercase (c.email ++ '\x1f' :: c.name ++ '\x1f' :: c.subject) =
      ((normalizedAuthor toLowercase c.email c.name).getD [], c.subject) := by
    rw [authorAndSubject, splitn3_three h.email.1 h.name.1]
  rw [hdrop, parseHeader, splitn3_three h.sha.1 hstamp]
  simp only [Option.getD_some, hauthor, Listed.opened, Listed.commit]
  have hvalid := h.stamp
  cases hs : c.stamp with
  | epoch seconds =>
    rw [hs] at hvalid
    simp [parseI64_epoch hvalid]
  | garbled text =>
    rw [hs] at hvalid
    simp [Stamp.render, hvalid.2.2]

theorem parseRecords_header {c : Listed} (h : c.Valid) (n : Nat) (records : List Text) (current : Option LogCommit) :
    parseRecords toLowercase ((breaks n ++ c.header) :: records) current =
      (parseRecords toLowercase records (c.opened toLowercase)).map (current.toList ++ ·) := by
  have hline : (breaks n ++ c.header).dropWhile (· = '\n') = c.header := by
    refine dropWhile_breaks n ?_
    intro ch cs hch
    simp only [Listed.header, COMMIT, List.append_assoc, List.cons_append, List.cons.injEq] at hch
    rw [← hch.1]
    decide
  have hprefix : COMMIT.isPrefixOf c.header = true := by
    simp only [Listed.header, List.append_assoc, List.isPrefixOf_iff_prefix]
    exact List.prefix_append _ _
  rw [parseRecords]
  simp only [hline, hprefix, if_true, parseHeader_header toLowercase h]

/-- A file added to the commit it belongs to. -/
def Entry.addTo (e : Entry) (commit : LogCommit) : LogCommit :=
  { commit with changes := commit.changes ++ e.change.toList, renames := commit.renames ++ e.rename.toList }

theorem Entry.isNumstatCount_added (e : Entry) : isNumstatCount e.added = true := by
  unfold Entry.added
  cases e.counts with
  | none => decide
  | some c => exact isNumstatCount_decimal c.1.toNat

theorem isNumstatCount_head {field : Text} (h : isNumstatCount field = true) :
    ∃ c cs, field = c :: cs ∧ c ≠ '\n' ∧ c ≠ 'c' := by
  cases field with
  | nil => exact absurd h (by decide)
  | cons c cs =>
    refine ⟨c, cs, rfl, ?_, ?_⟩
    all_goals
      rintro rfl
      simp [isNumstatCount] at h

theorem notMem_tab {field : Text} (h : isNumstatCount field = true) : '\t' ∉ field := by
  simp only [isNumstatCount, Bool.or_eq_true, Bool.and_eq_true, decide_eq_true_eq, List.all_eq_true] at h
  rcases h with rfl | ⟨-, hall⟩
  · decide
  · intro hmem
    exact absurd (hall '\t' hmem) (by decide)

theorem Entry.isNumstatCount_deleted (e : Entry) : isNumstatCount e.deleted = true := by
  unfold Entry.deleted
  cases e.counts with
  | none => decide
  | some c => exact isNumstatCount_decimal c.2.toNat

/-- The fields of a file's counts put the file onto its commit. -/
theorem addEntry_entry {e : Entry} (h : e.Valid) :
    addEntry e.added e.deleted e.path.toList (e.renamedFrom.map String.toList) = e.addTo := by
  have hpath : e.path.toList.isEmpty = false := by
    simpa using h.path.1
  have hchanges : entryChange e.added e.deleted e.path.toList = e.change.toList := by
    unfold entryChange Entry.added Entry.deleted Entry.change
    cases e.counts with
    | none => simp
    | some c => simp [hpath, decimal_ne_dash, parseU32_decimal]
  have hrenames : entryRename e.path.toList (e.renamedFrom.map String.toList) = e.rename.toList := by
    unfold entryRename Entry.rename
    cases hold : e.renamedFrom with
    | none => rfl
    | some old =>
      have hne : old.toList.isEmpty = false := by
        simpa using (h.renamedFrom old hold).1
      simp [hpath, hne]
  funext commit
  rw [addEntry, hchanges, hrenames, Entry.addTo]

/-- The loop at a line that starts with a count. -/
theorem parseRecords_numstat {added deleted path : Text} (ha : isNumstatCount added = true) (hd : '\t' ∉ deleted)
    (n : Nat) (records : List Text) (current : Option LogCommit) :
    parseRecords toLowercase ((breaks n ++ (added ++ '\t' :: deleted ++ '\t' :: path)) :: records) current =
      if path.isEmpty then
        match records with
        | old :: new :: records =>
          parseRecords toLowercase records (current.map (addEntry added deleted new (some old)))
        | _ => .ok current.toList
      else parseRecords toLowercase records (current.map (addEntry added deleted path none)) := by
  obtain ⟨c, cs, hc, hnewline, hcommit⟩ := isNumstatCount_head ha
  have hline : (breaks n ++ (added ++ '\t' :: deleted ++ '\t' :: path)).dropWhile (· = '\n') =
      added ++ '\t' :: deleted ++ '\t' :: path := by
    refine dropWhile_breaks n ?_
    intro c' cs' hcs
    rw [hc] at hcs
    cases hcs
    exact hnewline
  have hheader : COMMIT.isPrefixOf (added ++ '\t' :: deleted ++ '\t' :: path) = false := by
    rw [hc]
    simp [COMMIT, List.isPrefixOf, Ne.symm hcommit]
  have hempty : (added ++ '\t' :: deleted ++ '\t' :: path).isEmpty = false := by
    rw [hc]
    rfl
  rw [parseRecords]
  simp only [hline, hheader, hempty, splitn3_three (notMem_tab ha) hd, ha]
  rfl

/-- The loop behind the records of a file. -/
theorem parseRecords_entry {e : Entry} (h : e.Valid) (n : Nat) (records : List Text) (current : Option LogCommit) :
    parseRecords toLowercase (e.records (breaks n) ++ records) current =
      parseRecords toLowercase records (current.map e.addTo) := by
  have hline : ∀ path : Text, breaks n ++ e.added ++ '\t' :: e.deleted ++ ['\t'] ++ path =
      breaks n ++ (e.added ++ '\t' :: e.deleted ++ '\t' :: path) := by
    intro path
    simp only [List.append_assoc, List.cons_append, List.nil_append]
  have hnumstat := fun path => @parseRecords_numstat toLowercase e.added e.deleted path e.isNumstatCount_added
    (notMem_tab e.isNumstatCount_deleted) n
  have hadd := addEntry_entry h
  unfold Entry.records
  cases hold : e.renamedFrom with
  | none =>
    rw [hold] at hadd
    simp only [List.singleton_append]
    rw [hline, hnumstat, if_neg (by simpa using h.path.1)]
    rw [← hadd]
    rfl
  | some old =>
    rw [hold] at hadd
    have := hline []
    rw [List.append_nil] at this
    simp only [List.cons_append, List.nil_append]
    rw [this, hnumstat, if_pos List.isEmpty_nil, ← hadd]
    rfl

/-- The loop behind the files of a commit. -/
theorem parseRecords_entries {entries : List (Lead × Entry)} (h : ∀ e ∈ entries, e.2.Valid) (records : List Text) :
    ∀ current : Option LogCommit,
      parseRecords toLowercase (entries.flatMap (fun e => e.1.before e.2.records) ++ records) current =
        parseRecords toLowercase records (current.map fun commit => entries.foldl (fun c e => e.2.addTo c) commit) := by
  induction entries with
  | nil =>
    intro current
    rw [List.flatMap_nil, List.nil_append]
    congr 1
    exact Option.map_id'.symm
  | cons e entries ih =>
    intro current
    rw [List.flatMap_cons, List.append_assoc, Lead.before, List.append_assoc, parseRecords_blanks,
      parseRecords_entry toLowercase (h e List.mem_cons_self), ih fun e he => h e (List.mem_cons_of_mem _ he)]
    congr 1
    rw [Option.map_map]
    rfl

theorem foldl_addTo (entries : List (Lead × Entry)) : ∀ commit : LogCommit,
    entries.foldl (fun c e => e.2.addTo c) commit =
      { commit with changes := commit.changes ++ entries.filterMap (·.2.change),
                    renames := commit.renames ++ entries.filterMap (·.2.rename) } := by
  induction entries with
  | nil =>
    intro commit
    simp
  | cons e entries ih =>
    intro commit
    rw [List.foldl_cons, ih, Entry.addTo, List.filterMap_cons, List.filterMap_cons]
    cases e.2.change <;> cases e.2.rename <;> simp

/-- The loop behind a commit: it is current, and what was current is done. -/
theorem parseRecords_listed {c : Listed} (h : c.Valid) (records : List Text) (current : Option LogCommit) :
    parseRecords toLowercase (c.records ++ records) current =
      (parseRecords toLowercase records (c.commit toLowercase)).map (current.toList ++ ·) := by
  have hcommit : (c.opened toLowercase).map (fun commit => c.entries.foldl (fun c e => e.2.addTo c) commit) =
      c.commit toLowercase := by
    rw [Listed.opened, Option.map_map]
    unfold Listed.commit
    cases c.stamp with
    | garbled text => rfl
    | epoch seconds => simp [foldl_addTo]
  rw [Listed.records, List.append_assoc, Lead.before, List.append_assoc, parseRecords_blanks, List.singleton_append,
    parseRecords_header toLowercase h, parseRecords_entries toLowercase h.entries, hcommit]

end Records

section Listing

variable (toLowercase : Text → Text)

/-- The loop behind a listing: `done` are finished and `last` is still open. -/
theorem parseRecords_commits {commits : List Listed} (tail : List Text) :
    (∀ c ∈ commits, c.Valid) → ∀ current : Option LogCommit, ∃ done last,
      done ++ last.toList = current.toList ++ commits.filterMap (·.commit toLowercase) ∧
      parseRecords toLowercase (commits.flatMap Listed.records ++ tail) current =
        (parseRecords toLowercase tail last).map (done ++ ·) := by
  induction commits with
  | nil =>
    intro _ current
    refine ⟨[], current, by simp, ?_⟩
    rw [List.flatMap_nil, List.nil_append]
    cases parseRecords toLowercase tail current <;> rfl
  | cons c commits ih =>
    intro h current
    obtain ⟨done, last, hdone, hparse⟩ := ih (fun c hc => h c (List.mem_cons_of_mem _ hc)) (c.commit toLowercase)
    refine ⟨current.toList ++ done, last, ?_, ?_⟩
    · rw [List.append_assoc, hdone, List.filterMap_cons]
      cases c.commit toLowercase <;> rfl
    · rw [List.flatMap_cons, List.append_assoc, parseRecords_listed toLowercase (h c List.mem_cons_self), hparse]
      cases parseRecords toLowercase tail last with
      | error e => rfl
      | ok commits => simp [Except.map]

theorem splitOnP_records {records : List Text} (h : ∀ r ∈ records, NUL ∉ r) (tail : Text) :
    (records.flatMap (· ++ [NUL]) ++ tail).splitOnP (· = '\x00') = records ++ tail.splitOnP (· = '\x00') := by
  induction records with
  | nil => rfl
  | cons r records ih =>
    have hr : ∀ x ∈ r, decide (x = '\x00') = false := by
      intro x hx
      refine decide_eq_false ?_
      rintro rfl
      exact h r List.mem_cons_self hx
    rw [List.flatMap_cons, List.append_assoc, List.append_assoc, List.singleton_append,
      List.splitOnP_append_cons_of_forall_mem hr NUL (by decide), ih fun r' hr' => h r' (List.mem_cons_of_mem _ hr')]
    rfl

theorem notMem_breaks (n : Nat) : NUL ∉ breaks n := by
  intro h
  exact absurd (List.eq_of_mem_replicate h) (by decide)

theorem notMem_before {lead : Lead} {records : Text → List Text}
    (h : ∀ r ∈ records (breaks lead.newlines), NUL ∉ r) : ∀ r ∈ lead.before records, NUL ∉ r := by
  intro r hr
  rcases List.mem_append.mp hr with hr | hr
  · obtain ⟨n, -, rfl⟩ := List.mem_map.mp hr
    exact notMem_breaks n
  · exact h r hr

theorem notMem_count {field : Text} (h : isNumstatCount field = true) : NUL ∉ field := by
  simp only [isNumstatCount, Bool.or_eq_true, Bool.and_eq_true, decide_eq_true_eq, List.all_eq_true] at h
  rcases h with rfl | ⟨-, hall⟩
  · decide
  · intro hmem
    exact absurd (hall NUL hmem) (by decide)

theorem Entry.notMem_records {e : Entry} (h : e.Valid) (n : Nat) : ∀ r ∈ e.records (breaks n), NUL ∉ r := by
  have hcounts : NUL ∉ breaks n ++ e.added ++ '\t' :: e.deleted ++ ['\t'] := by
    simp only [List.mem_append, List.mem_cons, List.not_mem_nil, or_false, not_or]
    exact ⟨⟨⟨notMem_breaks n, notMem_count e.isNumstatCount_added⟩, by decide,
      notMem_count e.isNumstatCount_deleted⟩, by decide⟩
  unfold Entry.records
  cases hold : e.renamedFrom with
  | none =>
    intro r hr
    rw [List.mem_singleton.mp hr, List.mem_append, not_or]
    exact ⟨hcounts, h.path.2⟩
  | some old =>
    intro r hr
    simp only [List.mem_cons, List.not_mem_nil, or_false] at hr
    rcases hr with rfl | rfl | rfl
    · exact hcounts
    · exact (h.renamedFrom old hold).2
    · exact h.path.2

theorem Stamp.notMem_render {stamp : Stamp} (h : stamp.Valid) : NUL ∉ stamp.render := by
  cases stamp with
  | garbled text => exact h.2.1
  | epoch seconds =>
    rw [Stamp.render]
    split
    · rw [List.mem_cons, not_or]
      exact ⟨by decide, notMem_decimal (by decide)⟩
    · exact notMem_decimal (by decide)

theorem Listed.notMem_records {c : Listed} (h : c.Valid) : ∀ r ∈ c.records, NUL ∉ r := by
  intro r hr
  rcases List.mem_append.mp hr with hr | hr
  · refine notMem_before ?_ r hr
    intro r hr
    rw [List.mem_singleton.mp hr]
    simp only [Listed.header, List.mem_append, List.mem_cons, not_or]
    exact ⟨notMem_breaks _, ⟨⟨⟨⟨by decide, h.sha.2⟩, by decide, Stamp.notMem_render h.stamp⟩, by decide, h.email.2⟩,
      by decide, h.name.2⟩, by decide, h.subject⟩
  · obtain ⟨e, he, hr⟩ := List.mem_flatMap.mp hr
    exact notMem_before (Entry.notMem_records (h.entries e he) _) r hr

theorem parseLog_render {commits : List Listed} (h : ∀ c ∈ commits, c.Valid) (tail : Text) :
    parseLog toLowercase (render commits ++ tail) =
      parseRecords toLowercase (commits.flatMap Listed.records ++ tail.splitOnP (· = '\x00')) none := by
  rw [parseLog, render, splitOnP_records]
  intro r hr
  obtain ⟨c, hc, hr⟩ := List.mem_flatMap.mp hr
  exact Listed.notMem_records (h c hc) r hr

end Listing

section Foreign

variable (toLowercase : Text → Text)

/-- A record without the newlines it begins with. -/
def lineOf (record : Text) : Text := record.dropWhile (· = '\n')

/-- The text up to the first tab. -/
def firstField (record : Text) : Text := (splitn3 '\t' (lineOf record)).1

/-- Two counts and a path, which a rename leaves empty. -/
def IsNumstat (line : Text) : Prop :=
  ∃ added deleted path, line = added ++ '\t' :: deleted ++ '\t' :: path ∧ isNumstatCount added = true ∧
    isNumstatCount deleted = true

/-- Neither blank, nor a commit header, nor a numstat line. -/
structure Foreign (record : Text) : Prop where
  nul : NUL ∉ record
  line : lineOf record ≠ []
  header : ¬COMMIT <+: lineOf record
  numstat : ¬IsNumstat (lineOf record)

/-- The loop at a foreign record. -/
theorem parseRecords_foreign {record : Text} (h : Foreign record) (records : List Text)
    (current : Option LogCommit) :
    parseRecords toLowercase (record :: records) current =
      if !isNumstatCount (firstField record) then .error ⟨(lineOf record).take 120⟩
      else
        match (splitn3 '\t' (lineOf record)).2 with
        | some (deleted, some path) =>
          if path.isEmpty then
            match records with
            | old :: new :: records =>
              parseRecords toLowercase records (current.map (addEntry (firstField record) deleted new (some old)))
            | _ => .ok current.toList
          else parseRecords toLowercase records (current.map (addEntry (firstField record) deleted path none))
        | _ => parseRecords toLowercase records current := by
  have hheader : COMMIT.isPrefixOf (lineOf record) = false := by
    rw [Bool.eq_false_iff, Ne, List.isPrefixOf_iff_prefix]
    exact h.header
  have hempty : (lineOf record).isEmpty = false := by
    simpa using h.line
  rw [parseRecords]
  simp only [show record.dropWhile (· = '\n') = lineOf record from rfl, hheader, hempty]
  rfl

/-- A foreign record that starts with a count is passed over in silence. -/
theorem parseRecords_counted {record : Text} (h : Foreign record) (current : Option LogCommit)
    (hcount : isNumstatCount (firstField record) = true) :
    ∃ commits, parseRecords toLowercase [record, []] current = .ok commits := by
  have hend : ∀ current, parseRecords toLowercase [[]] current = .ok current.toList :=
    fun current => parseRecords_blank toLowercase 0 [] current
  rw [parseRecords_foreign toLowercase h, hcount, Bool.not_true, if_neg Bool.false_ne_true]
  simp only [hend]
  repeat' split
  all_goals exact ⟨_, rfl⟩

/-- A listing is read back exactly, less the commits whose timestamp is garbled; a foreign record behind it is
an error, whatever follows, exactly when it does not start with a count. -/
theorem parse_log_inverts_listing_iff {commits : List Listed} (h : ∀ c ∈ commits, c.Valid) :
    parseLog toLowercase (render commits) = .ok (commits.filterMap (·.commit toLowercase)) ∧
    ∀ record, Foreign record →
      ((∀ rest, ∃ e, parseLog toLowercase (render commits ++ (record ++ NUL :: rest)) = .error e) ↔
        isNumstatCount (firstField record) = false) := by
  have htail : ∀ {record : Text} (rest : Text), Foreign record →
      (record ++ NUL :: rest).splitOnP (· = '\x00') = record :: rest.splitOnP (· = '\x00') := by
    intro record rest hforeign
    refine List.splitOnP_append_cons_of_forall_mem ?_ NUL (by decide) rest
    intro x hx
    refine decide_eq_false ?_
    rintro rfl
    exact hforeign.nul hx
  constructor
  · obtain ⟨done, last, hdone, hparse⟩ := parseRecords_commits toLowercase [[]] h none
    have hrender := parseLog_render toLowercase h []
    rw [List.append_nil, List.splitOnP_nil, hparse] at hrender
    have hend : parseRecords toLowercase [[]] last = .ok last.toList := parseRecords_blank toLowercase 0 [] last
    rw [hrender, hend]
    exact congrArg Except.ok hdone
  · intro record hforeign
    constructor
    · intro herror
      by_contra hcount
      rw [Bool.not_eq_false] at hcount
      obtain ⟨e, he⟩ := herror []
      rw [parseLog_render toLowercase h, htail [] hforeign, List.splitOnP_nil] at he
      obtain ⟨done, last, -, hparse⟩ := parseRecords_commits toLowercase [record, []] h none
      obtain ⟨found, hfound⟩ := parseRecords_counted toLowercase hforeign last hcount
      rw [hparse, hfound] at he
      cases he
    · intro hcount rest
      obtain ⟨done, last, -, hparse⟩ :=
        parseRecords_commits toLowercase (record :: rest.splitOnP (· = '\x00')) h none
      refine ⟨⟨(lineOf record).take 120⟩, ?_⟩
      rw [parseLog_render toLowercase h, htail rest hforeign, hparse, parseRecords_foreign toLowercase hforeign,
        hcount]
      rfl

/-- One commit with one file. -/
def first : Listed :=
  { lead := ⟨[], 0⟩, sha := "abc", stamp := .epoch 1700000000, email := ['a', '@', 'b'], name := ['A'],
    subject := ['x'], entries := [(⟨[], 1⟩, ⟨some (1, 0), none, "a.rs"⟩)] }

/-- The header of a second commit behind `7 TAB sig`. -/
def injected : Text := "7\tsig\ncommit\tdef\t1700001000\ty".toList

theorem first_valid : first.Valid where
  sha := by decide
  stamp := ⟨by decide, by decide⟩
  email := by decide
  name := by decide
  subject := by decide
  entries := by
    intro e he
    rw [List.mem_singleton.mp he]
    exact ⟨⟨by decide, by decide⟩, nofun⟩

/-- A commit whose timestamp is garbled, with a rename that looks like a header. -/
def garbled : Listed :=
  { lead := ⟨[0], 0⟩, sha := "bad", stamp := .garbled ['?'], email := [], name := [], subject := ['y'],
    entries := [(⟨[], 1⟩, ⟨none, some "commit\told", "n"⟩)] }

theorem garbled_valid : garbled.Valid where
  sha := by decide
  stamp := ⟨by decide, by decide, by decide⟩
  email := by decide
  name := by decide
  subject := by decide
  entries := by
    intro e he
    rw [List.mem_singleton.mp he]
    refine ⟨⟨by decide, by decide⟩, ?_⟩
    rintro old ⟨⟩
    exact ⟨by decide, by decide⟩

/-- The commit of `first`, with the changes given. -/
def firstCommit (changes : List FileChange) : LogCommit :=
  { sha := "abc", author := "email:a@b", timestamp := 1700000000, subject := ['x'], changes, renames := [] }

theorem parse_log_inverts_listing_garbled :
    parseLog id (render [first, garbled]) = .ok [firstCommit [⟨"a.rs", 1, 0⟩]] := by
  have hvalid : ∀ c ∈ [first, garbled], c.Valid := by
    intro c hc
    simp only [List.mem_cons, List.not_mem_nil, or_false] at hc
    rcases hc with rfl | rfl
    · exact first_valid
    · exact garbled_valid
  exact (parse_log_inverts_listing_iff id hvalid).1.trans rfl

theorem not_isNumstat {line first second : Text} {rest : Option Text}
    (h : splitn3 '\t' line = (first, some (second, rest))) (hcount : isNumstatCount second = false) :
    ¬IsNumstat line := by
  rintro ⟨added, deleted, path, rfl, hadded, hdeleted⟩
  rw [splitn3_three (notMem_tab hadded) (notMem_tab hdeleted)] at h
  cases h
  rw [hdeleted] at hcount
  cases hcount

/-- The second commit is hidden, and its file counts for the first. -/
theorem injected_header_hides_commit :
    Foreign injected ∧
    parseLog id (render [first] ++ (injected ++ NUL :: "2\t0\tc.rs\x00".toList)) =
      .ok [firstCommit [⟨"a.rs", 1, 0⟩, ⟨"c.rs", 2, 0⟩]] := by
  have hfields : splitn3 '\t' (lineOf injected) =
      (['7'], some ("sig\ncommit".toList, some "def\t1700001000\ty".toList)) := by
    decide
  exact ⟨⟨by decide, by decide, by decide, not_isNumstat hfields (by decide)⟩, by decide +kernel⟩

end Foreign

end Log
end Git
end CodeSage
