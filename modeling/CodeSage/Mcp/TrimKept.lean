import CodeSage.Mcp.TrimRun

/-!
# CodeSage.Mcp.TrimKept

What trimming keeps of a value: everything but the ends of source texts and of arrays of rows (`Run.kept`).
-/

namespace CodeSage
namespace Mcp
namespace Trim

open Lib Lib.Json

section Definition

mutual

/-- `out` is the value with some of its sources cut and, where `mayDrop`, some of its arrays shorter. -/
def Kept (mayDrop : Bool) : Json → Json → Prop
  | .arr rows, out => ∃ rows', out = .arr rows' ∧ KeptRows mayDrop rows rows' ∧
      (rows'.length < rows.length → mayDrop = true ∧ rows' ≠ [] ∧ trimmable rows = true)
  | .obj members, out => ∃ members', out = .obj members' ∧ KeptMembers mayDrop members members'
  | value, out => out = value
termination_by structural value => value

/-- The rows that are left, from the first on. -/
def KeptRows (mayDrop : Bool) : List Json → List Json → Prop
  | [], rows' => rows' = []
  | row :: rows, rows' => rows' = [] ∨ ∃ row' rest', rows' = row' :: rest' ∧ Kept mayDrop row row' ∧ KeptRows mayDrop rows rest'
termination_by structural rows => rows

/-- The same members in the same order. -/
def KeptMembers (mayDrop : Bool) : List (Text × Json) → Members → Prop
  | [], members' => members' = []
  | (key, value) :: members, members' => ∃ value' rest', members' = (key, value') :: rest' ∧ KeptMembers mayDrop members rest' ∧
      if key ∈ SOURCE_SKIPPED then value' = value
      else (key ∈ SOURCE_KEYS ∧ ∃ text text', value = .str text ∧ value' = .str text' ∧ IsCut text text') ∨
        Kept (mayDrop && decide (key ∉ ROWS_SKIPPED)) value value'
termination_by structural members => members

end

/-- What is kept of one member. -/
def KeptMember (mayDrop : Bool) (key : Text) (value value' : Json) : Prop :=
  if key ∈ SOURCE_SKIPPED then value' = value
  else (key ∈ SOURCE_KEYS ∧ ∃ text text', value = .str text ∧ value' = .str text' ∧ IsCut text text') ∨
    Kept (mayDrop && decide (key ∉ ROWS_SKIPPED)) value value'

end Definition

section Order

variable {mayDrop : Bool} {value value' value'' : Json}

theorem keptMembers_cons {key : Text} {members members' : Members} :
    KeptMembers mayDrop ((key, value) :: members) members' ↔
      ∃ value' rest', members' = (key, value') :: rest' ∧ KeptMembers mayDrop members rest' ∧ KeptMember mayDrop key value value' := by
  rw [KeptMembers]
  rfl

theorem keptMember_refl {key : Text} (h : ∀ mayDrop, Kept mayDrop value value) : KeptMember mayDrop key value value := by
  rw [KeptMember]
  split
  · rfl
  · exact Or.inr (h _)

theorem keptMembers_refl {members : Members} (h : ∀ member ∈ members, ∀ mayDrop, Kept mayDrop member.2 member.2) :
    KeptMembers mayDrop members members := by
  induction members with
  | nil => rfl
  | cons member members ih =>
    obtain ⟨hmember, hmembers⟩ := List.forall_mem_cons.mp h
    exact keptMembers_cons.mpr ⟨member.2, members, rfl, ih hmembers, keptMember_refl hmember⟩

theorem keptRows_refl {rows : List Json} (h : ∀ row ∈ rows, ∀ mayDrop, Kept mayDrop row row) : KeptRows mayDrop rows rows := by
  induction rows with
  | nil => rfl
  | cons row rows ih =>
    obtain ⟨hrow, hrows⟩ := List.forall_mem_cons.mp h
    exact Or.inr ⟨row, rows, rfl, hrow mayDrop, ih hrows⟩

theorem kept_refl (mayDrop : Bool) (value : Json) : Kept mayDrop value value := by
  induction value using Json.ind generalizing mayDrop with
  | arr rows ih => exact ⟨rows, rfl, keptRows_refl ih, fun hlt => absurd hlt (Nat.lt_irrefl _)⟩
  | obj members ih => exact ⟨members, rfl, keptMembers_refl ih⟩
  | _ => rfl

theorem kept_kind (h : Kept mayDrop value value') : kind value' = kind value := by
  cases value with
  | arr rows =>
    obtain ⟨rows', rfl, -⟩ := h
    rfl
  | obj members =>
    obtain ⟨members', rfl, -⟩ := h
    rfl
  | _ => exact congrArg kind h

theorem keptRows_length {rows rows' : List Json} (h : KeptRows mayDrop rows rows') : rows'.length ≤ rows.length := by
  induction rows generalizing rows' with
  | nil =>
    rw [KeptRows] at h
    rw [h]
  | cons row rows ih =>
    rcases h with rfl | ⟨row', rest', rfl, -, hrest⟩
    · exact Nat.zero_le _
    · exact Nat.succ_le_succ (ih hrest)

/-- Where no row is dropped, the rows are of the kinds they were. -/
theorem keptRows_kinds {rows rows' : List Json} (h : KeptRows mayDrop rows rows') (hlength : rows'.length = rows.length) :
    rows'.map kind = rows.map kind := by
  induction rows generalizing rows' with
  | nil =>
    rw [KeptRows] at h
    rw [h]
  | cons row rows ih =>
    rcases h with rfl | ⟨row', rest', rfl, hrow, hrest⟩
    · cases hlength
    · rw [List.map_cons, List.map_cons, kept_kind hrow, ih hrest (Nat.succ.inj hlength)]

theorem kept_str {text : Text} {out : Json} (h : Kept mayDrop (.str text) out) : out = .str text := h

theorem keptMember_trans {key : Text} (ih : ∀ mayDrop value' value'', Kept mayDrop value value' → Kept mayDrop value' value'' → Kept mayDrop value value'')
    (h : KeptMember mayDrop key value value') (h' : KeptMember mayDrop key value' value'') : KeptMember mayDrop key value value'' := by
  rw [KeptMember] at h h' ⊢
  by_cases hskipped : key ∈ SOURCE_SKIPPED
  · rw [if_pos hskipped] at h h' ⊢
    exact h'.trans h
  · rw [if_neg hskipped] at h h' ⊢
    rcases h with ⟨hkey, text, text', rfl, rfl, hcut⟩ | hkept
    · rcases h' with ⟨-, _, text'', heq, rfl, hcut'⟩ | hkept'
      · cases heq
        exact Or.inl ⟨hkey, text, text'', rfl, rfl, hcut.trans hcut'⟩
      · exact Or.inl ⟨hkey, text, text', rfl, kept_str hkept', hcut⟩
    · rcases h' with ⟨hkey, text, text'', rfl, rfl, hcut⟩ | hkept'
      · have hvalue : value = .str text := by
          cases value with
          | str s => exact (kept_str hkept).symm
          | arr rows =>
            obtain ⟨_, heq, -⟩ := hkept
            cases heq
          | obj members =>
            obtain ⟨_, heq, -⟩ := hkept
            cases heq
          | _ => cases hkept
        exact Or.inl ⟨hkey, text, text'', hvalue, rfl, hcut⟩
      · exact Or.inr (ih _ _ _ hkept hkept')

theorem keptMembers_trans {members members' members'' : Members}
    (ih : ∀ member ∈ members, ∀ mayDrop value' value'', Kept mayDrop member.2 value' → Kept mayDrop value' value'' → Kept mayDrop member.2 value'')
    (h : KeptMembers mayDrop members members') (h' : KeptMembers mayDrop members' members'') : KeptMembers mayDrop members members'' := by
  induction members generalizing members' members'' with
  | nil =>
    rw [KeptMembers] at h
    subst h
    exact h'
  | cons member members ihMembers =>
    obtain ⟨ihMember, ihs⟩ := List.forall_mem_cons.mp ih
    obtain ⟨value', rest', rfl, hrest, hmember⟩ := keptMembers_cons.mp h
    obtain ⟨value'', rest'', rfl, hrest', hmember'⟩ := keptMembers_cons.mp h'
    exact keptMembers_cons.mpr ⟨value'', rest'', rfl, ihMembers ihs hrest hrest', keptMember_trans ihMember hmember hmember'⟩

theorem keptRows_trans {rows rows' rows'' : List Json}
    (ih : ∀ row ∈ rows, ∀ mayDrop value' value'', Kept mayDrop row value' → Kept mayDrop value' value'' → Kept mayDrop row value'')
    (h : KeptRows mayDrop rows rows') (h' : KeptRows mayDrop rows' rows'') : KeptRows mayDrop rows rows'' := by
  induction rows generalizing rows' rows'' with
  | nil =>
    rw [KeptRows] at h
    subst h
    exact h'
  | cons row rows ihRows =>
    obtain ⟨ihRow, ihs⟩ := List.forall_mem_cons.mp ih
    rcases h with rfl | ⟨row', rest', rfl, hrow, hrest⟩
    · rw [KeptRows] at h'
      exact Or.inl h'
    · rcases h' with rfl | ⟨row'', rest'', rfl, hrow', hrest'⟩
      · exact Or.inl rfl
      · exact Or.inr ⟨row'', rest'', rfl, ihRow _ _ _ hrow hrow', ihRows ihs hrest hrest'⟩

theorem kept_trans (h : Kept mayDrop value value') (h' : Kept mayDrop value' value'') : Kept mayDrop value value'' := by
  induction value using Json.ind generalizing mayDrop value' value'' with
  | arr rows ih =>
    obtain ⟨rows', rfl, hrows, hdropped⟩ := h
    obtain ⟨rows'', rfl, hrows', hdropped'⟩ := h'
    refine ⟨rows'', rfl, keptRows_trans (fun row hmem _ _ _ h h' => ih row hmem h h') hrows hrows', fun hlt => ?_⟩
    have hle := keptRows_length hrows
    have hle' := keptRows_length hrows'
    by_cases hlt' : rows''.length < rows'.length
    · obtain ⟨hmay, hne, htrimmable⟩ := hdropped' hlt'
      refine ⟨hmay, hne, ?_⟩
      by_cases hless : rows'.length < rows.length
      · exact (hdropped hless).2.2
      · rw [← trimmable_congr (keptRows_kinds hrows (by omega)), htrimmable]
    · obtain ⟨hmay, hne, htrimmable⟩ := hdropped (by omega)
      refine ⟨hmay, fun hnil => ?_, htrimmable⟩
      have := List.length_pos_iff.mpr hne
      rw [hnil, List.length_nil] at hlt'
      exact hlt' this
  | obj members ih =>
    obtain ⟨members', rfl, hmembers⟩ := h
    obtain ⟨members'', rfl, hmembers'⟩ := h'
    exact ⟨members'', rfl, keptMembers_trans (fun member hmem _ _ _ h h' => ih member hmem h h') hmembers hmembers'⟩
  | _ =>
    cases h
    exact h'

end Order

section Steps

variable {mayDrop : Bool} {value result : Json} {tokens : List Text}

theorem keptMembers_insert {members : Members} {key : Text} {old new : Json} (hlookup : lookup key members = some old)
    (h : KeptMember mayDrop key old new) : KeptMembers mayDrop members (insert key new members) := by
  induction members with
  | nil => cases hlookup
  | cons member members ih =>
    obtain ⟨first, found⟩ := member
    rw [lookup] at hlookup
    rw [Json.insert]
    split at hlookup
    · rename_i hfirst
      subst hfirst
      cases hlookup
      rw [if_pos rfl]
      exact keptMembers_cons.mpr ⟨new, members, rfl, keptMembers_refl fun member _ mayDrop => kept_refl mayDrop member.2, h⟩
    · rename_i hfirst
      rw [if_neg hfirst]
      exact keptMembers_cons.mpr ⟨found, _, rfl, ih hlookup, keptMember_refl fun mayDrop => kept_refl mayDrop found⟩

theorem keptRows_set {rows : List Json} {i : Nat} {old new : Json} (hrow : rows[i]? = some old) (h : Kept mayDrop old new) :
    KeptRows mayDrop rows (rows.set i new) := by
  induction rows generalizing i with
  | nil => simp at hrow
  | cons row rows ih =>
    cases i with
    | zero =>
      cases hrow
      exact Or.inr ⟨new, rows, rfl, h, keptRows_refl fun row _ mayDrop => kept_refl mayDrop row⟩
    | succ i => exact Or.inr ⟨row, _, rfl, kept_refl mayDrop row, ih (by simpa using hrow)⟩

theorem kept_row {rows : List Json} {i : Nat} {old new : Json} (hrow : rows[i]? = some old) (h : Kept mayDrop old new) :
    Kept mayDrop (.arr rows) (setChild (.arr rows) (decimal i) new) := by
  rw [setChild, parseIndex_decimal]
  refine ⟨_, rfl, keptRows_set hrow h, fun hlt => ?_⟩
  rw [List.length_set] at hlt
  exact absurd hlt (Nat.lt_irrefl _)

theorem SourceAt.kept {text : Text} (h : SourceAt tokens value text) (hlong : 256 < Utf8.size text)
    (made : update (fun _ => .str (shorten text)) tokens value = some result) : Kept mayDrop value result := by
  induction h generalizing mayDrop result with
  | @here members key text hopen hkey hfound =>
    obtain ⟨old, new, hchild, hnew, rfl⟩ := update_cons made
    cases hfound.symm.trans hchild
    cases hnew
    refine ⟨_, rfl, keptMembers_insert hfound ?_⟩
    rw [KeptMember, if_neg hopen]
    exact Or.inl ⟨hkey, text, shorten text, rfl, rfl, isCut_shorten hlong⟩
  | member hopen hfound _ ih =>
    obtain ⟨old, new, hchild, hnew, rfl⟩ := update_cons made
    cases hfound.symm.trans hchild
    refine ⟨_, rfl, keptMembers_insert hfound ?_⟩
    rw [KeptMember, if_neg hopen]
    exact Or.inr (ih hlong hnew)
  | row hfound _ ih =>
    obtain ⟨old, new, hchild, hnew, rfl⟩ := update_cons made
    rw [child_row] at hchild
    cases hfound.symm.trans hchild
    exact kept_row hfound (ih hlong hnew)

theorem keptRows_dropLast (rows : List Json) : KeptRows mayDrop rows rows.dropLast := by
  induction rows with
  | nil => rfl
  | cons row rows ih =>
    cases rows with
    | nil => exact Or.inl rfl
    | cons next rows => exact Or.inr ⟨row, _, rfl, kept_refl mayDrop row, ih⟩

theorem RowsPath.kept {rows : List Json} (h : RowsPath tokens value (.arr rows)) (hmore : trimmable rows = true)
    (made : Json.update (fun _ => .arr rows.dropLast) tokens value = some result) : Kept true value result := by
  generalize htarget : Json.arr rows = target at h
  induction h generalizing result with
  | here value =>
    subst htarget
    cases made
    have htwo := two_le_of_trimmable hmore
    refine ⟨rows.dropLast, rfl, keptRows_dropLast rows, fun _ => ⟨rfl, fun hnil => ?_, hmore⟩⟩
    have := congrArg List.length hnil
    rw [List.length_dropLast, List.length_nil] at this
    omega
  | member hopen hfound _ ih =>
    obtain ⟨old, new, hchild, hnew, rfl⟩ := update_cons made
    cases hfound.symm.trans hchild
    refine ⟨_, rfl, keptMembers_insert hfound ?_⟩
    rw [KeptMember, if_neg fun hskipped => hopen (List.mem_append_left _ hskipped), decide_eq_true hopen]
    exact Or.inr (ih hnew htarget)
  | row _ hfound _ ih =>
    obtain ⟨old, new, hchild, hnew, rfl⟩ := update_cons made
    rw [child_row] at hchild
    cases hfound.symm.trans hchild
    exact kept_row hfound (ih hnew htarget)

theorem Run.kept {first : Json} {events : List Event} (h : Run first events value) : Kept true first value := by
  induction h with
  | start => exact kept_refl true _
  | cut _ source long made ih => exact kept_trans ih (source.kept long made)
  | drop _ path more made ih => exact kept_trans ih (path.kept more made)

end Steps

end Trim
end Mcp
end CodeSage
