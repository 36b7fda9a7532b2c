import CodeSage.Mcp.Trim

/-!
# CodeSage.Mcp.TrimPaths

The places a trimming step can take something from, and what the two searches find: the longest source that is a
long one (`sourceCandidates_scan`), the largest array whose rows may be dropped (`rowsCandidates_scan`).
-/

namespace CodeSage
namespace Mcp
namespace Trim

open Lib Lib.Json

/-- The way to a source: a text under one of the source keys, with no skipped key on the way. -/
inductive SourceAt : List Text → Json → Text → Prop where
  | here {members : Members} {key text : Text} (open_ : key ∉ SOURCE_SKIPPED) (source : key ∈ SOURCE_KEYS)
    (found : lookup key members = some (.str text)) : SourceAt [key] (.obj members) text
  | member {members : Members} {key text : Text} {value : Json} {tokens : List Text} (open_ : key ∉ SOURCE_SKIPPED)
    (found : lookup key members = some value) (rest : SourceAt tokens value text) : SourceAt (key :: tokens) (.obj members) text
  | row {rows : List Json} {i : Nat} {row : Json} {text : Text} {tokens : List Text} (found : rows[i]? = some row)
    (rest : SourceAt tokens row text) : SourceAt (decimal i :: tokens) (.arr rows) text

/-- The way to a value through members under no skipped key and through arrays whose rows are never dropped. -/
inductive RowsPath : List Text → Json → Json → Prop where
  | here (value : Json) : RowsPath [] value value
  | member {members : Members} {key : Text} {value target : Json} {tokens : List Text} (open_ : key ∉ ROWS_SKIPPED)
    (found : lookup key members = some value) (rest : RowsPath tokens value target) : RowsPath (key :: tokens) (.obj members) target
  | row {rows : List Json} {i : Nat} {row target : Json} {tokens : List Text} (kept : trimmable rows = false)
    (found : rows[i]? = some row) (rest : RowsPath tokens row target) : RowsPath (decimal i :: tokens) (.arr rows) target

theorem child_row (rows : List Json) (i : Nat) : child (.arr rows) (decimal i) = rows[i]? := by
  rw [child, parseIndex_decimal, Option.bind_some]

theorem SourceAt.follow {tokens : List Text} {value : Json} {text : Text} (h : SourceAt tokens value text) :
    Json.follow tokens value = some (.str text) := by
  induction h with
  | here _ _ found => simp [Json.follow, child, found]
  | member _ found _ ih => rw [Json.follow, child, found, Option.bind_some, ih]
  | row found _ ih => rw [Json.follow, child_row, found, Option.bind_some, ih]

theorem RowsPath.follow {tokens : List Text} {value target : Json} (h : RowsPath tokens value target) :
    Json.follow tokens value = some target := by
  induction h with
  | here _ => rfl
  | member _ found _ ih => rw [Json.follow, child, found, Option.bind_some, ih]
  | row _ found _ ih => rw [Json.follow, child_row, found, Option.bind_some, ih]

section Scans

/-- What a search leaves: the best found before or something found now; nothing where there is nothing. -/
structure Scan (best result : Best) (found : Nat × Text → Prop) (clear : Prop) : Prop where
  sound : result = best ∨ ∃ entry, result = some entry ∧ found entry
  complete : result = none → best = none ∧ clear

variable {best result next : Best} {found found' : Nat × Text → Prop} {clear clear' : Prop}

theorem Scan.mono (h : Scan best result found clear) (hfound : ∀ entry, found entry → found' entry) (hclear : clear → clear') :
    Scan best result found' clear' :=
  ⟨h.sound.imp_right fun ⟨entry, heq, hentry⟩ => ⟨entry, heq, hfound entry hentry⟩, fun hnone => (h.complete hnone).imp_right hclear⟩

theorem Scan.trans (h : Scan best result found clear) (h' : Scan result next found' clear') :
    Scan best next (fun entry => found entry ∨ found' entry) (clear ∧ clear') := by
  constructor
  · rcases h'.sound with rfl | ⟨entry, heq, hentry⟩
    · exact h.sound.imp_right fun ⟨entry, heq, hentry⟩ => ⟨entry, heq, Or.inl hentry⟩
    · exact Or.inr ⟨entry, heq, Or.inr hentry⟩
  · intro hnone
    obtain ⟨hresult, hclear'⟩ := h'.complete hnone
    obtain ⟨hbest, hclear⟩ := h.complete hresult
    exact ⟨hbest, hclear, hclear'⟩

theorem Scan.same (h : clear) : Scan best best found clear := ⟨Or.inl rfl, fun hnone => ⟨hnone, h⟩⟩

theorem Scan.some {entry : Nat × Text} (h : found entry) : Scan best (some entry) found clear := ⟨Or.inr ⟨entry, rfl, h⟩, nofun⟩

/-- A best that is there already keeps a search from coming out empty. -/
theorem Scan.kept {entry : Nat × Text} : Scan (Option.some entry) (Option.some entry) found clear := ⟨Or.inl rfl, nofun⟩

end Scans

section Sources

/-- A long source of a value, as a search below `path` reports it. -/
def LongSource (value : Json) (path : Text) (entry : Nat × Text) : Prop :=
  ∃ tokens text, SourceAt tokens value text ∧ 256 < Utf8.size text ∧ entry = (Utf8.size text, path ++ toPointer tokens)

def NoLongSource (value : Json) : Prop := ∀ tokens text, SourceAt tokens value text → Utf8.size text ≤ 256

theorem isLongSource_iff {key : Text} {value : Json} :
    isLongSource key value = true ↔ key ∈ SOURCE_KEYS ∧ ∃ text, value = .str text ∧ 256 < Utf8.size text := by
  rw [isLongSource, Bool.and_eq_true, decide_eq_true_eq]
  refine and_congr_right fun _ => ?_
  cases value <;> simp [asStr]

theorem textSize_str (text : Text) : textSize (.str text) = Utf8.size text := rfl

theorem toPointer_cons (token : Text) (tokens : List Text) : toPointer (token :: tokens) = '/' :: escapeKey token ++ toPointer tokens := rfl

/-- One member: a long source itself, or what is below it. -/
theorem sourceMember_scan {key : Text} {value : Json} {path : Text} {best : Best} (hopen : key ∉ SOURCE_SKIPPED)
    (ih : Scan best (sourceCandidates value (path ++ '/' :: escapeKey key) best) (LongSource value (path ++ '/' :: escapeKey key)) (NoLongSource value)) :
    Scan best
      (if isLongSource key value && smaller best (textSize value) then some (textSize value, path ++ '/' :: escapeKey key)
        else sourceCandidates value (path ++ '/' :: escapeKey key) best)
      (fun entry => ∀ members : Members, lookup key members = some value → LongSource (.obj members) path entry)
      ((∀ text, key ∈ SOURCE_KEYS → value = .str text → Utf8.size text ≤ 256) ∧ NoLongSource value) := by
  by_cases htake : (isLongSource key value && smaller best (textSize value)) = true
  · rw [if_pos htake]
    obtain ⟨hkey, text, rfl, hlong⟩ := isLongSource_iff.mp ((Bool.and_eq_true _ _).mp htake).1
    refine Scan.some fun members hlookup => ⟨[key], text, .here hopen hkey hlookup, hlong, ?_⟩
    rw [textSize_str, toPointer_cons, toPointer, List.flatMap_nil, List.append_nil]
  · rw [if_neg htake]
    refine ⟨?_, fun hnone => ?_⟩
    · refine ih.sound.imp_right ?_
      rintro ⟨entry, heq, tokens, text, hsource, hlong, hentry⟩
      refine ⟨entry, heq, fun members hlookup => ?_⟩
      exact ⟨key :: tokens, text, .member hopen hlookup hsource, hlong, by rw [hentry, toPointer_cons]; simp⟩
    · obtain ⟨hbest, hclear⟩ := ih.complete hnone
      refine ⟨hbest, fun text hkey hvalue => ?_, hclear⟩
      by_contra hlong
      have hlongSource : isLongSource key value = true := isLongSource_iff.mpr ⟨hkey, text, hvalue, by omega⟩
      exact htake (by rw [hlongSource, hbest]; rfl)

theorem sourceMembers_scan {members rest : Members} (hrest : ∀ member ∈ rest, lookup member.1 members = some member.2)
    (ih : ∀ member ∈ rest, ∀ path best, Scan best (sourceCandidates member.2 path best) (LongSource member.2 path) (NoLongSource member.2))
    (path : Text) (best : Best) :
    Scan best (sourceMembers rest path best) (LongSource (.obj members) path)
      (∀ member ∈ rest, member.1 ∉ SOURCE_SKIPPED →
        (∀ text, member.1 ∈ SOURCE_KEYS → member.2 = .str text → Utf8.size text ≤ 256) ∧ NoLongSource member.2) := by
  induction rest generalizing best with
  | nil => exact Scan.same nofun
  | cons member rest ihRest =>
    obtain ⟨key, value⟩ := member
    obtain ⟨hlookup, hlookups⟩ := List.forall_mem_cons.mp hrest
    obtain ⟨ihMember, ihs⟩ := List.forall_mem_cons.mp ih
    rw [sourceMembers]
    by_cases hopen : key ∈ SOURCE_SKIPPED
    · rw [if_pos hopen]
      refine (ihRest hlookups ihs best).mono (fun _ h => h) fun hclear => ?_
      exact List.forall_mem_cons.mpr ⟨fun hnot => absurd hopen hnot, hclear⟩
    · rw [if_neg hopen]
      have hmember := sourceMember_scan hopen (ihMember (path ++ '/' :: escapeKey key) best)
      have hsplit : (if isLongSource key value && smaller best (textSize value) then
            sourceMembers rest path (some (textSize value, path ++ '/' :: escapeKey key))
          else sourceMembers rest path (sourceCandidates value (path ++ '/' :: escapeKey key) best)) =
          sourceMembers rest path (if isLongSource key value && smaller best (textSize value) then
            some (textSize value, path ++ '/' :: escapeKey key) else sourceCandidates value (path ++ '/' :: escapeKey key) best) := by
        split <;> rfl
      rw [hsplit]
      refine (hmember.trans (ihRest hlookups ihs _)).mono ?_ ?_
      · rintro entry (hentry | hentry)
        · exact hentry members hlookup
        · exact hentry
      · rintro ⟨hclear, hclears⟩
        exact List.forall_mem_cons.mpr ⟨fun _ => hclear, hclears⟩

theorem sourceRows_scan {rows rest : List Json} {i : Nat} (hrest : rows.drop i = rest)
    (ih : ∀ row ∈ rest, ∀ path best, Scan best (sourceCandidates row path best) (LongSource row path) (NoLongSource row))
    (path : Text) (best : Best) :
    Scan best (sourceRows rest path i best) (LongSource (.arr rows) path) (∀ row ∈ rest, NoLongSource row) := by
  induction rest generalizing i best with
  | nil => exact Scan.same nofun
  | cons row rest ihRest =>
    obtain ⟨ihRow, ihs⟩ := List.forall_mem_cons.mp ih
    have hrow : rows[i]? = some row := by
      rw [← List.head?_drop, hrest]
      rfl
    have hnext : rows.drop (i + 1) = rest := by
      rw [← List.drop_drop, hrest]
      rfl
    rw [sourceRows]
    refine ((ihRow (path ++ '/' :: decimal i) best).trans (ihRest hnext ihs _)).mono ?_ ?_
    · rintro entry (⟨tokens, text, hsource, hlong, hentry⟩ | hentry)
      · refine ⟨decimal i :: tokens, text, .row hrow hsource, hlong, ?_⟩
        rw [hentry, toPointer_cons, escapeKey_decimal]
        simp
      · exact hentry
    · rintro ⟨hclear, hclears⟩
      exact List.forall_mem_cons.mpr ⟨hclear, hclears⟩

theorem sourceCandidates_scan {value : Json} (h : value.distinct = true) (path : Text) (best : Best) :
    Scan best (sourceCandidates value path best) (LongSource value path) (NoLongSource value) := by
  induction value using Json.ind generalizing path best with
  | obj members ih =>
    obtain ⟨hkeys, hmembers⟩ := distinct_obj.mp h
    rw [sourceCandidates]
    refine (sourceMembers_scan (fun member hmem => lookup_of_mem hkeys hmem)
      (fun member hmem path best => ih member hmem (hmembers member hmem) path best) path best).mono (fun _ h => h) ?_
    rintro hclear _ text (⟨hopen, hkey, hfound⟩ | ⟨hopen, hfound, hrest⟩)
    · exact (hclear _ (mem_of_lookup hfound) hopen).1 text hkey rfl
    · exact (hclear _ (mem_of_lookup hfound) hopen).2 _ text hrest
  | arr rows ih =>
    have hrows := distinct_arr.mp h
    rw [sourceCandidates]
    refine (sourceRows_scan (List.drop_zero) (fun row hmem path best => ih row hmem (hrows row hmem) path best) path best).mono (fun _ h => h) ?_
    rintro hclear _ text ⟨⟩
    rename_i hfound hrest
    exact hclear _ (List.mem_of_getElem? hfound) _ text hrest
  | null => exact Scan.same nofun
  | bool b => exact Scan.same nofun
  | num n => exact Scan.same nofun
  | str s => exact Scan.same nofun

end Sources

section Rows

/-- An array whose rows may be dropped, as a search below `path` reports it. -/
def DroppableRows (value : Json) (path : Text) (entry : Nat × Text) : Prop :=
  ∃ tokens rows, RowsPath tokens value (.arr rows) ∧ trimmable rows = true ∧ entry.2 = path ++ toPointer tokens

def NoDroppableRows (value : Json) : Prop := ∀ tokens rows, RowsPath tokens value (.arr rows) → trimmable rows = false

theorem rowsMembers_scan {members rest : Members} (hrest : ∀ member ∈ rest, lookup member.1 members = some member.2)
    (ih : ∀ member ∈ rest, ∀ path best, Scan best (rowsCandidates member.2 path best) (DroppableRows member.2 path) (NoDroppableRows member.2))
    (path : Text) (best : Best) :
    Scan best (rowsMembers rest path best) (DroppableRows (.obj members) path)
      (∀ member ∈ rest, member.1 ∉ ROWS_SKIPPED → NoDroppableRows member.2) := by
  induction rest generalizing best with
  | nil => exact Scan.same nofun
  | cons member rest ihRest =>
    obtain ⟨key, value⟩ := member
    obtain ⟨hlookup, hlookups⟩ := List.forall_mem_cons.mp hrest
    obtain ⟨ihMember, ihs⟩ := List.forall_mem_cons.mp ih
    rw [rowsMembers]
    by_cases hopen : key ∈ ROWS_SKIPPED
    · rw [if_pos hopen]
      refine (ihRest hlookups ihs best).mono (fun _ h => h) fun hclear => ?_
      exact List.forall_mem_cons.mpr ⟨fun hnot => absurd hopen hnot, hclear⟩
    · rw [if_neg hopen]
      refine ((ihMember (path ++ '/' :: escapeKey key) best).trans (ihRest hlookups ihs _)).mono ?_ ?_
      · rintro entry (⟨tokens, rows, hpath, hdrop, hentry⟩ | hentry)
        · refine ⟨key :: tokens, rows, .member hopen hlookup hpath, hdrop, ?_⟩
          rw [hentry, toPointer_cons]
          simp
        · exact hentry
      · rintro ⟨hclear, hclears⟩
        exact List.forall_mem_cons.mpr ⟨fun _ => hclear, hclears⟩

theorem rowsRows_scan {rows rest : List Json} {i : Nat} (hkept : trimmable rows = false) (hrest : rows.drop i = rest)
    (ih : ∀ row ∈ rest, ∀ path best, Scan best (rowsCandidates row path best) (DroppableRows row path) (NoDroppableRows row))
    (path : Text) (best : Best) :
    Scan best (rowsRows rest path i best) (DroppableRows (.arr rows) path) (∀ row ∈ rest, NoDroppableRows row) := by
  induction rest generalizing i best with
  | nil => exact Scan.same nofun
  | cons row rest ihRest =>
    obtain ⟨ihRow, ihs⟩ := List.forall_mem_cons.mp ih
    have hrow : rows[i]? = some row := by
      rw [← List.head?_drop, hrest]
      rfl
    have hnext : rows.drop (i + 1) = rest := by
      rw [← List.drop_drop, hrest]
      rfl
    rw [rowsRows]
    refine ((ihRow (path ++ '/' :: decimal i) best).trans (ihRest hnext ihs _)).mono ?_ ?_
    · rintro entry (⟨tokens, inner, hpath, hdrop, hentry⟩ | hentry)
      · refine ⟨decimal i :: tokens, inner, .row hkept hrow hpath, hdrop, ?_⟩
        rw [hentry, toPointer_cons, escapeKey_decimal]
        simp
      · exact hentry
    · rintro ⟨hclear, hclears⟩
      exact List.forall_mem_cons.mpr ⟨hclear, hclears⟩

theorem rowsCandidates_scan {value : Json} (h : value.distinct = true) (path : Text) (best : Best) :
    Scan best (rowsCandidates value path best) (DroppableRows value path) (NoDroppableRows value) := by
  induction value using Json.ind generalizing path best with
  | obj members ih =>
    obtain ⟨hkeys, hmembers⟩ := distinct_obj.mp h
    rw [rowsCandidates]
    refine (rowsMembers_scan (fun member hmem => lookup_of_mem hkeys hmem)
      (fun member hmem path best => ih member hmem (hmembers member hmem) path best) path best).mono (fun _ h => h) ?_
    rintro hclear _ rows ⟨⟩
    rename_i hopen hfound hrest
    exact hclear _ (mem_of_lookup hfound) hopen _ rows hrest
  | arr rows ih =>
    have hrows := distinct_arr.mp h
    rw [rowsCandidates]
    by_cases hdrop : trimmable rows = true
    · rw [if_pos hdrop]
      split
      · exact Scan.some ⟨[], rows, .here _, hdrop, by rw [toPointer, List.flatMap_nil, List.append_nil]⟩
      · rename_i hbig
        cases best with
        | none => exact absurd rfl hbig
        | some entry => exact Scan.kept
    · rw [if_neg hdrop]
      have hkept : trimmable rows = false := by simpa using hdrop
      refine (rowsRows_scan hkept (List.drop_zero) (fun row hmem path best => ih row hmem (hrows row hmem) path best) path best).mono
        (fun _ h => h) ?_
      rintro hclear _ inner (_ | _ | ⟨_, hfound, hrest⟩)
      · exact hkept
      · exact hclear _ (List.mem_of_getElem? hfound) _ inner hrest
  | null => exact Scan.same (by rintro _ _ ⟨⟩)
  | bool b => exact Scan.same (by rintro _ _ ⟨⟩)
  | num n => exact Scan.same (by rintro _ _ ⟨⟩)
  | str s => exact Scan.same (by rintro _ _ ⟨⟩)

end Rows

end Trim
end Mcp
end CodeSage
