import CodeSage.Mcp.TrimPaths

/-!
# CodeSage.Mcp.TrimRun

A trimmed value through the steps that led to it: each cuts a source in half or drops the last row of an array. From
the steps taken follow the rows of every array (`Run.length`, `Run.dropped`) and which texts are no longer whole
(`Run.whole_or_cut`, `Run.cut_resolves`); the weight of the value bounds their number (`Run.weight`).
-/

namespace CodeSage
namespace Mcp
namespace Trim

open Lib Lib.Json

section Steps

/-- What decides whether an array's rows may be dropped. -/
def kind (value : Json) : Bool × Bool × Bool := (value.isObject, value.isString, value.isArray)

theorem trimmable_congr {rows rows' : List Json} (h : rows'.map kind = rows.map kind) : trimmable rows' = trimmable rows := by
  have hall : ∀ (p : Bool × Bool × Bool → Bool) (l : List Json), (l.all fun row => p (kind row)) = (l.map kind).all p := by
    intro p l
    rw [List.all_map]
    rfl
  have hlength : rows'.length = rows.length := by simpa using congrArg List.length h
  have hobjects : rows'.all isObject = rows.all isObject :=
    (hall (·.1) rows').trans ((congrArg (List.all · (·.1)) h).trans (hall (·.1) rows).symm)
  have hstrings : rows'.all isString = rows.all isString :=
    (hall (·.2.1) rows').trans ((congrArg (List.all · (·.2.1)) h).trans (hall (·.2.1) rows).symm)
  have harrays : rows'.all isArray = rows.all isArray :=
    (hall (·.2.2) rows').trans ((congrArg (List.all · (·.2.2)) h).trans (hall (·.2.2) rows).symm)
  rw [trimmable, trimmable, hlength, hobjects, hstrings, harrays]

theorem kind_setChild (value : Json) (token : Text) (new : Json) : kind (setChild value token new) = kind value := by
  cases value with
  | arr rows =>
    rw [setChild]
    split <;> rfl
  | _ => rfl

variable {f : Json → Json} {value result old : Json} {tokens place : List Text}

theorem kind_update (h : update f place value = some result) (hold : follow place value = some old) (hkind : kind (f old) = kind old) :
    kind result = kind value := by
  cases place with
  | nil =>
    cases h
    cases hold
    exact hkind
  | cons token place =>
    obtain ⟨_, _, _, _, rfl⟩ := update_cons h
    exact kind_setChild _ _ _

theorem map_kind_set {rows : List Json} {i : Nat} {row new : Json} (hrow : rows[i]? = some row) (hkind : kind new = kind row) :
    (rows.set i new).map kind = rows.map kind := by
  obtain ⟨hi, rfl⟩ := List.getElem?_eq_some_iff.mp hrow
  rw [List.map_set, hkind, ← List.getElem_map kind (h := by simpa using hi), List.set_getElem_self]

/-- The rows of an array elsewhere, or above the place of a step, stay as many as they are. -/
theorem RowsPath.update {target : Json} (h : RowsPath tokens value target) (hupdate : Json.update f place value = some result)
    (hold : Json.follow place value = some old) (hkind : kind (f old) = kind old) (hnot : ¬place <+: tokens) :
    ∃ target', RowsPath tokens result target' ∧ ∀ rows, target = .arr rows → ∃ rows', target' = .arr rows' ∧ rows'.length = rows.length := by
  induction h generalizing place result with
  | here value =>
    cases place with
    | nil => exact absurd List.nil_prefix hnot
    | cons token place =>
      obtain ⟨next, new, hchild, hnew, rfl⟩ := update_cons hupdate
      refine ⟨_, .here _, ?_⟩
      rintro rows rfl
      rw [setChild]
      split
      · exact ⟨_, rfl, List.length_set⟩
      · exact ⟨rows, rfl, rfl⟩
  | @member members key next target tokens hopen hfound hrest ih =>
    cases place with
    | nil => exact absurd List.nil_prefix hnot
    | cons token place =>
      obtain ⟨old', new, hchild, hnew, rfl⟩ := update_cons hupdate
      rw [Json.follow, hchild, Option.bind_some] at hold
      by_cases htoken : token = key
      · subst htoken
        cases hfound.symm.trans hchild
        obtain ⟨target', hpath, hrows⟩ := ih hnew hold fun hprefix => hnot ((List.prefix_cons_inj token).mpr hprefix)
        exact ⟨target', .member hopen (by simp [lookup_insert]) hpath, hrows⟩
      · exact ⟨target, .member hopen (by rw [lookup_insert, if_neg (Ne.symm htoken)]; exact hfound) hrest, fun rows heq => ⟨rows, heq, rfl⟩⟩
  | @row rows i next target tokens hkept hfound hrest ih =>
    cases place with
    | nil => exact absurd List.nil_prefix hnot
    | cons token place =>
      obtain ⟨old', new, hchild, hnew, rfl⟩ := update_cons hupdate
      rw [Json.follow, hchild, Option.bind_some] at hold
      obtain ⟨j, hindex, hrow⟩ := Option.bind_eq_some_iff.mp hchild
      have hkept' : trimmable (rows.set j new) = false := by
        rw [trimmable_congr (map_kind_set hrow (kind_update hnew hold hkind)), hkept]
      simp only [setChild, hindex]
      by_cases hij : j = i
      · subst hij
        cases hfound.symm.trans hrow
        have htoken := eq_decimal_of_parseIndex hindex
        obtain ⟨target', hpath, hrows⟩ := ih hnew hold fun hprefix => hnot (htoken ▸ (List.prefix_cons_inj _).mpr hprefix)
        have hlt := (List.getElem?_eq_some_iff.mp hrow).1
        exact ⟨target', .row hkept' (by simp [hlt]) hpath, hrows⟩
      · exact ⟨target, .row hkept' (by rw [List.getElem?_set_ne hij]; exact hfound) hrest, fun rows heq => ⟨rows, heq, rfl⟩⟩

/-- At the place of a step stands what the step has made. -/
theorem RowsPath.update_self (h : RowsPath place value old) (hupdate : Json.update f place value = some result)
    (hkind : kind (f old) = kind old) : RowsPath place result (f old) := by
  induction h generalizing result with
  | here value =>
    cases hupdate
    exact .here _
  | member hopen hfound hrest ih =>
    obtain ⟨old', new, hchild, hnew, rfl⟩ := update_cons hupdate
    cases hfound.symm.trans hchild
    exact .member hopen (by simp [lookup_insert]) (ih hnew hkind)
  | @row rows i next target tokens hkept hfound hrest ih =>
    obtain ⟨old', new, hchild, hnew, rfl⟩ := update_cons hupdate
    rw [child_row] at hchild
    cases hfound.symm.trans hchild
    simp only [setChild, parseIndex_decimal]
    have hlt := (List.getElem?_eq_some_iff.mp hfound).1
    refine .row ?_ (by simp [hlt]) (ih hnew hkind)
    rw [trimmable_congr (map_kind_set hfound (kind_update hnew hrest.follow hkind)), hkept]

/-- A way to rows never leads through a text or through an array whose rows may be dropped. -/
theorem RowsPath.above {target : Json} {above : List Text} {token : Text} {rest : List Text} (h : RowsPath (above ++ token :: rest) value target)
    (hold : Json.follow above value = some old) : (∃ members, old = .obj members) ∨ ∃ rows, old = .arr rows ∧ trimmable rows = false := by
  induction above generalizing value with
  | nil =>
    cases hold
    cases h with
    | member _ _ _ => exact Or.inl ⟨_, rfl⟩
    | row hkept _ _ => exact Or.inr ⟨_, rfl, hkept⟩
  | cons first above ih =>
    cases h with
    | member _ hfound hrest =>
      rw [Json.follow, child, hfound, Option.bind_some] at hold
      exact ih hrest hold
    | row _ hfound hrest =>
      rw [Json.follow, child_row, hfound, Option.bind_some] at hold
      exact ih hrest hold

/-- What a step below leaves of a value: a value of its kind, with as many rows, and no text. -/
theorem above_update {new : Json} {token : Text} {rest : List Text} (h : Json.update f (tokens ++ token :: rest) value = some result)
    (hnew : Json.follow tokens result = some new) :
    ∃ old, Json.follow tokens value = some old ∧ new.asStr = none ∧
      ∀ rows', new = .arr rows' → ∃ rows, old = .arr rows ∧ rows'.length = rows.length := by
  induction tokens generalizing value result with
  | nil =>
    obtain ⟨next, changed, hchild, hchanged, rfl⟩ := update_cons h
    cases hnew
    refine ⟨value, rfl, ?_, ?_⟩
    · cases value with
      | arr rows => rw [setChild]; split <;> rfl
      | obj members => rfl
      | _ => cases hchild
    · intro rows' hrows'
      cases value with
      | arr rows =>
        rw [setChild] at hrows'
        split at hrows' <;> cases hrows'
        · exact ⟨rows, rfl, List.length_set⟩
        · exact ⟨_, rfl, rfl⟩
      | obj members => cases hrows'
      | _ => cases hchild
  | cons first tokens ih =>
    obtain ⟨next, changed, hchild, hchanged, rfl⟩ := update_cons h
    rw [Json.follow, child_setChild hchild, Option.bind_some] at hnew
    obtain ⟨old, hold, hrest⟩ := ih hchanged hnew
    exact ⟨old, by rw [Json.follow, hchild, Option.bind_some, hold], hrest⟩

theorem follow_dropLast {rows : List Json} {token : Text} {found : Json} (h : Json.follow (token :: tokens) (.arr rows.dropLast) = some found) :
    Json.follow (token :: tokens) (.arr rows) = some found := by
  obtain ⟨row, hrow, hrest⟩ := Option.bind_eq_some_iff.mp h
  obtain ⟨i, hindex, hget⟩ := Option.bind_eq_some_iff.mp hrow
  have hrow' : rows[i]? = some row := by
    rw [List.getElem?_dropLast] at hget
    split at hget
    · exact hget
    · cases hget
  rw [Json.follow, child, hindex, Option.bind_some, hrow', Option.bind_some, hrest]

end Steps

section Events

inductive Event where
  | cut (tokens : List Text)
  | drop (tokens : List Text)
deriving DecidableEq

/-- The steps from a value to what is left of it, in their order. -/
inductive Run (first : Json) : List Event → Json → Prop where
  | start : Run first [] first
  | cut {events : List Event} {value result : Json} {tokens : List Text} {text : Text} (before : Run first events value)
    (source : SourceAt tokens value text) (long : 256 < Utf8.size text)
    (made : update (fun _ => .str (shorten text)) tokens value = some result) : Run first (events ++ [.cut tokens]) result
  | drop {events : List Event} {value result : Json} {tokens : List Text} {rows : List Json} (before : Run first events value)
    (path : RowsPath tokens value (.arr rows)) (more : trimmable rows = true)
    (made : update (fun _ => .arr rows.dropLast) tokens value = some result) : Run first (events ++ [.drop tokens]) result

variable {first value : Json} {events : List Event}

theorem two_le_of_trimmable {rows : List Json} (h : trimmable rows = true) : 2 ≤ rows.length := by
  rw [trimmable, Bool.and_eq_true, decide_eq_true_eq] at h
  exact h.1

theorem Run.distinct (h : Run first events value) (hfirst : first.distinct = true) : value.distinct = true := by
  induction h with
  | start => exact hfirst
  | cut before source _ made ih => exact distinct_update ih made source.follow rfl
  | drop before path _ made ih =>
    refine distinct_update ih made path.follow (distinct_arr.mpr fun row hmem => ?_)
    exact distinct_arr.mp (distinct_follow ih path.follow) row (List.dropLast_subset _ hmem)

/-- Where the places of two walks stand to each other. -/
theorem places (a b : List Text) : (¬a <+: b ∧ ¬b <+: a) ∨ (∃ token rest, b = a ++ token :: rest) ∨ a = b ∨ ∃ token rest, a = b ++ token :: rest := by
  by_cases hab : a <+: b
  · obtain ⟨rest, rfl⟩ := hab
    cases rest with
    | nil => exact Or.inr (Or.inr (Or.inl (List.append_nil a).symm))
    | cons token rest => exact Or.inr (Or.inl ⟨token, rest, rfl⟩)
  · by_cases hba : b <+: a
    · obtain ⟨rest, rfl⟩ := hba
      cases rest with
      | nil => exact absurd (by rw [List.append_nil]) hab
      | cons token rest => exact Or.inr (Or.inr (Or.inr ⟨token, rest, rfl⟩))
    · exact Or.inl ⟨hab, hba⟩

/-- Every array left is one from the beginning, less the rows dropped from it. -/
theorem Run.length (h : Run first events value) {tokens : List Text} {rows : List Json} (hrows : follow tokens value = some (.arr rows)) :
    ∃ rows₀, follow tokens first = some (.arr rows₀) ∧ rows.length + events.count (.drop tokens) = rows₀.length := by
  induction h generalizing tokens rows with
  | start => exact ⟨rows, hrows, rfl⟩
  | @cut events value result place text before source _ made ih =>
    have hcount : (events ++ [Event.cut place]).count (.drop tokens) = events.count (.drop tokens) := by simp
    rw [hcount]
    rcases places place tokens with ⟨hbelow, habove⟩ | ⟨token, rest, rfl⟩ | rfl | ⟨token, rest, rfl⟩
    · exact ih (by rw [← hrows, follow_update_apart made hbelow habove])
    · rw [follow_update made source.follow] at hrows
      cases hrows
    · have hself := follow_update made source.follow []
      rw [List.append_nil, hrows] at hself
      cases hself
    · obtain ⟨old, hold, -, hsame⟩ := above_update made hrows
      obtain ⟨rows', rfl, hlength⟩ := hsame rows rfl
      rw [hlength]
      exact ih hold
  | @drop events value result place dropped before path more made ih =>
    have hother : place ≠ tokens → (events ++ [Event.drop place]).count (.drop tokens) = events.count (.drop tokens) := by
      intro hne
      simp [hne]
    rcases places place tokens with ⟨hbelow, habove⟩ | ⟨token, rest, rfl⟩ | rfl | ⟨token, rest, rfl⟩
    · rw [hother fun heq => hbelow (heq ▸ List.prefix_rfl)]
      exact ih (by rw [← hrows, follow_update_apart made hbelow habove])
    · rw [hother (by simp)]
      rw [follow_update made path.follow] at hrows
      refine ih ?_
      rw [follow_append, path.follow, Option.bind_some]
      exact follow_dropLast hrows
    · have hself := follow_update made path.follow []
      rw [List.append_nil, hrows] at hself
      cases hself
      obtain ⟨rows₀, hrows₀, hlength⟩ := ih path.follow
      have htwo := two_le_of_trimmable more
      refine ⟨rows₀, hrows₀, ?_⟩
      rw [List.length_dropLast, List.count_append, List.count_singleton_self]
      omega
    · rw [hother (by simp)]
      obtain ⟨old, hold, -, hsame⟩ := above_update made hrows
      obtain ⟨rows', rfl, hlength⟩ := hsame rows rfl
      rw [hlength]
      exact ih hold

/-- A step somewhere else, or above nothing of it: an array rows were dropped from is still in its place. -/
theorem Run.dropped (h : Run first events value) {tokens : List Text} (hdrop : .drop tokens ∈ events) :
    ∃ rows, RowsPath tokens value (.arr rows) ∧ rows ≠ [] := by
  induction h with
  | start => cases hdrop
  | @cut events value result place text before source _ made ih =>
    obtain ⟨rows, hpath, hne⟩ := ih (by simpa using hdrop)
    have hnot : ¬place <+: tokens := by
      rintro ⟨rest, rfl⟩
      cases rest with
      | nil =>
        rw [List.append_nil] at hpath
        cases hpath.follow.symm.trans source.follow
      | cons token rest =>
        rcases hpath.above source.follow with ⟨members, heq⟩ | ⟨rows, heq, -⟩ <;> cases heq
    obtain ⟨target, htarget, hrows⟩ := hpath.update made source.follow rfl hnot
    obtain ⟨rows', rfl, hlength⟩ := hrows rows rfl
    exact ⟨rows', htarget, fun hnil => hne (List.length_eq_zero_iff.mp (by rw [← hlength, hnil]; rfl))⟩
  | @drop events value result place dropped before path more made ih =>
    have htwo := two_le_of_trimmable more
    by_cases hsame : place = tokens
    · subst hsame
      refine ⟨_, path.update_self made rfl, fun hnil => ?_⟩
      have := congrArg List.length hnil
      rw [List.length_dropLast, List.length_nil] at this
      omega
    · have hother : Event.drop tokens ∈ events := by simpa [Ne.symm hsame] using hdrop
      obtain ⟨rows, hpath, hne⟩ := ih hother
      have hnot : ¬place <+: tokens := by
        rintro ⟨rest, rfl⟩
        cases rest with
        | nil => exact hsame (List.append_nil place).symm
        | cons token rest =>
          rcases hpath.above path.follow with ⟨members, heq⟩ | ⟨rows, heq, hkept⟩
          · cases heq
          · cases heq
            rw [more] at hkept
            cases hkept
      obtain ⟨target, htarget, hrows⟩ := hpath.update made path.follow rfl hnot
      obtain ⟨rows', rfl, hlength⟩ := hrows rows rfl
      exact ⟨rows', htarget, fun hnil => hne (List.length_eq_zero_iff.mp (by rw [← hlength, hnil]; rfl))⟩

end Events

section Texts

theorem exists_boundaryBelow (text : Text) (stop : Nat) :
    ∃ kept rest, text = kept ++ rest ∧ Utf8.size kept = boundaryBelow text stop ∧ boundaryBelow text stop ≤ stop := by
  induction stop with
  | zero => exact ⟨[], text, rfl, rfl, Nat.le_refl 0⟩
  | succ stop ih =>
    rw [boundaryBelow]
    split
    · rename_i hboundary
      obtain ⟨r, hr⟩ := Option.isSome_iff_exists.mp hboundary
      obtain ⟨htext, hsize⟩ := Utf8.cut_some hr
      exact ⟨r.1, r.2, htext, hsize, Nat.le_refl _⟩
    · obtain ⟨kept, rest, htext, hsize, hle⟩ := ih
      exact ⟨kept, rest, htext, hsize, hle.trans (Nat.le_succ stop)⟩

/-- A text cut in half begins with what is left of it and ends with the marker. -/
theorem shorten_eq (text : Text) : ∃ kept, kept <+: text ∧ Utf8.size kept ≤ Utf8.size text / 2 ∧ shorten text = kept ++ MARKER := by
  obtain ⟨kept, rest, htext, hsize, hle⟩ := exists_boundaryBelow text (Utf8.size text / 2)
  refine ⟨kept, ⟨rest, htext.symm⟩, hsize.trans_le hle, ?_⟩
  have hslice : Utf8.slice text 0 (boundaryBelow text (Utf8.size text / 2)) = some kept := by
    rw [← hsize]
    conv_lhs => rw [htext]
    have := Utf8.slice_append [] kept rest
    rwa [List.nil_append, Utf8.size_nil, Nat.zero_add] at this
  rw [shorten, hslice, Option.getD_some]

theorem size_marker : Utf8.size MARKER = 29 := by decide

/-- A text cut, once or more: some of its beginning, with the marker. -/
def IsCut (text text' : Text) : Prop := ∃ kept, kept <+: text ∧ text' = kept ++ MARKER ∧ Utf8.size text' < Utf8.size text

theorem isCut_shorten {text : Text} (h : 256 < Utf8.size text) : IsCut text (shorten text) := by
  obtain ⟨kept, hprefix, hsize, heq⟩ := shorten_eq text
  refine ⟨kept, hprefix, heq, ?_⟩
  rw [heq, Utf8.size_append, size_marker]
  omega

theorem IsCut.trans {a b c : Text} (hab : IsCut a b) (hbc : IsCut b c) : IsCut a c := by
  obtain ⟨kept, hkept, rfl, hlt⟩ := hab
  obtain ⟨kept', hkept', rfl, hlt'⟩ := hbc
  refine ⟨kept', ?_, rfl, hlt'.trans hlt⟩
  rw [Utf8.size_append, Utf8.size_append] at hlt'
  refine (List.prefix_of_prefix_length_le hkept' (List.prefix_append kept MARKER) ?_).trans hkept
  by_contra hlong
  obtain ⟨more, rfl⟩ := List.prefix_of_prefix_length_le (List.prefix_append kept MARKER) hkept' (by omega)
  rw [Utf8.size_append] at hlt'
  omega

variable {first value : Json} {events : List Event}

theorem Run.weight (h : Run first events value) : value.weight + events.length ≤ first.weight := by
  induction h with
  | start => exact Nat.le_refl _
  | @cut events value result tokens text before source long made ih =>
    have hweight := weight_update made source.follow
    obtain ⟨-, -, -, hlt⟩ := isCut_shorten long
    simp only [Json.weight] at hweight
    rw [List.length_append, List.length_singleton]
    omega
  | @drop events value result tokens rows before path more made ih =>
    have hweight := weight_update made path.follow
    have htwo := two_le_of_trimmable more
    have hne : rows ≠ [] := List.ne_nil_of_length_pos (by omega)
    have hrows : weightRows rows.dropLast + (rows.getLast hne).weight = weightRows rows := by
      conv_rhs => rw [← List.dropLast_append_getLast hne, weightRows_append]
      rfl
    have hpos := weight_pos (rows.getLast hne)
    simp only [Json.weight] at hweight
    rw [List.length_append, List.length_singleton]
    omega

end Texts

end Trim
end Mcp
end CodeSage
