import CodeSage.Mcp.TrimKept

/-!
# CodeSage.Mcp.TrimCorrect

The loop of `trim_to_budget` takes the steps of a `Run` on what a reply holds beside its disclosure, and each time
writes the disclosure of the run so far.

`trim_to_budget_accounts`: within the budget or with nothing left to take, and what was taken is accounted for.
-/

namespace CodeSage
namespace Mcp
namespace Trim

open Lib Lib.Json

section Body

/-- A reply without its disclosure. -/
def strip (members : Members) : Members := members.filter fun member => member.1 ≠ COMPLETENESS ∧ member.1 ≠ META

variable {members : Members} {key : Text}

theorem lookup_strip (hcompleteness : key ≠ COMPLETENESS) (hmeta : key ≠ META) : lookup key (strip members) = lookup key members := by
  induction members with
  | nil => rfl
  | cons member members ih =>
    rw [strip] at ih ⊢
    by_cases hmember : member.1 ≠ COMPLETENESS ∧ member.1 ≠ META
    · rw [List.filter_cons_of_pos (by simpa using hmember), lookup, lookup, ih]
    · have hne : member.1 ≠ key := by
        rintro rfl
        exact hmember ⟨hcompleteness, hmeta⟩
      rw [List.filter_cons_of_neg (by simpa using hmember), ih, lookup, if_neg hne]

theorem strip_insert (hcompleteness : key ≠ COMPLETENESS) (hmeta : key ≠ META) (value : Json) :
    strip (insert key value members) = insert key value (strip members) := by
  induction members with
  | nil => simp [strip, Json.insert, hcompleteness, hmeta]
  | cons member members ih =>
    obtain ⟨first, old⟩ := member
    rw [Json.insert]
    by_cases hfirst : first = key
    · subst hfirst
      simp [strip, Json.insert, hcompleteness, hmeta]
    · rw [if_neg hfirst]
      by_cases hmember : first ≠ COMPLETENESS ∧ first ≠ META
      · simp only [strip, ne_eq] at ih ⊢
        rw [List.filter_cons_of_pos (by simpa using hmember), List.filter_cons_of_pos (by simpa using hmember), ih, Json.insert, if_neg hfirst]
      · simp only [strip, ne_eq] at ih ⊢
        rw [List.filter_cons_of_neg (by simpa using hmember), List.filter_cons_of_neg (by simpa using hmember), ih]

theorem strip_insert_disclosure (h : key = COMPLETENESS ∨ key = META) (value : Json) : strip (insert key value members) = strip members := by
  have hout : ∀ value : Json, ¬((key, value).1 ≠ COMPLETENESS ∧ (key, value).1 ≠ META) := fun _ hboth => h.elim hboth.1 hboth.2
  induction members with
  | nil => rw [Json.insert, strip, List.filter_cons_of_neg (by simpa using hout value)]; rfl
  | cons member members ih =>
    obtain ⟨first, old⟩ := member
    rw [Json.insert]
    by_cases hfirst : first = key
    · subst hfirst
      rw [if_pos rfl, strip, strip, List.filter_cons_of_neg (by simpa using hout value), List.filter_cons_of_neg (by simpa using hout old)]
    · rw [if_neg hfirst]
      simp only [strip] at ih ⊢
      rw [List.filter_cons, List.filter_cons, ih]

theorem mem_skipped : COMPLETENESS ∈ SOURCE_SKIPPED ∧ META ∈ SOURCE_SKIPPED := by decide

theorem open_ne (h : key ∉ SOURCE_SKIPPED) : key ≠ COMPLETENESS ∧ key ≠ META :=
  ⟨fun heq => h (heq ▸ mem_skipped.1), fun heq => h (heq ▸ mem_skipped.2)⟩

theorem skipped_of_not_open (h : ¬(key ≠ COMPLETENESS ∧ key ≠ META)) : key ∈ SOURCE_SKIPPED := by
  by_contra hopen
  exact h (open_ne hopen)

theorem rows_open {key : Text} (h : key ∉ ROWS_SKIPPED) : key ∉ SOURCE_SKIPPED := fun hskipped => h (List.mem_append_left _ hskipped)

theorem sourceMembers_strip (members : Members) (path : Text) (best : Best) : sourceMembers (strip members) path best = sourceMembers members path best := by
  induction members generalizing best with
  | nil => rfl
  | cons member members ih =>
    rw [strip] at ih ⊢
    by_cases hmember : member.1 ≠ COMPLETENESS ∧ member.1 ≠ META
    · rw [List.filter_cons_of_pos (by simpa using hmember), sourceMembers, sourceMembers]
      simp only [ih]
    · rw [List.filter_cons_of_neg (by simpa using hmember), ih, sourceMembers, if_pos (skipped_of_not_open hmember)]

theorem rowsMembers_strip (members : Members) (path : Text) (best : Best) : rowsMembers (strip members) path best = rowsMembers members path best := by
  induction members generalizing best with
  | nil => rfl
  | cons member members ih =>
    rw [strip] at ih ⊢
    by_cases hmember : member.1 ≠ COMPLETENESS ∧ member.1 ≠ META
    · rw [List.filter_cons_of_pos (by simpa using hmember), rowsMembers, rowsMembers]
      simp only [ih]
    · have hskipped : member.1 ∈ ROWS_SKIPPED := List.mem_append_left _ (skipped_of_not_open hmember)
      rw [List.filter_cons_of_neg (by simpa using hmember), ih, rowsMembers, if_pos hskipped]

theorem distinct_strip (h : (Json.obj members).distinct = true) : (Json.obj (strip members)).distinct = true := by
  obtain ⟨hkeys, hmembers⟩ := distinct_obj.mp h
  exact distinct_obj.mpr ⟨hkeys.sublist (List.filter_sublist.map Prod.fst), fun member hmem => hmembers member (List.mem_of_mem_filter hmem)⟩

theorem weight_strip (members : Members) : (Json.obj (strip members)).weight ≤ (Json.obj members).weight := by
  rw [weight, weight, Nat.add_le_add_iff_right, strip]
  induction members with
  | nil => exact Nat.le_refl _
  | cons member members ih =>
    rw [List.filter_cons]
    split
    · exact Nat.add_le_add_left ih _
    · exact ih.trans (Nat.le_add_left _ _)

end Body

section Changes

variable {members : Members} {f : Json → Json}

theorem follow_strip {key : Text} {tokens : List Text} (hopen : key ∉ SOURCE_SKIPPED) :
    follow (key :: tokens) (.obj (strip members)) = follow (key :: tokens) (.obj members) := by
  rw [follow, follow, child, child, lookup_strip (open_ne hopen).1 (open_ne hopen).2]

theorem update_strip {key : Text} {tokens : List Text} {result : Json} (hopen : key ∉ SOURCE_SKIPPED)
    (h : update f (key :: tokens) (.obj (strip members)) = some result) :
    ∃ members', update f (key :: tokens) (.obj members) = some (.obj members') ∧ result = .obj (strip members') ∧
      lookup META members' = lookup META members := by
  obtain ⟨hcompleteness, hmeta⟩ := open_ne hopen
  obtain ⟨old, new, hchild, hnew, rfl⟩ := update_cons h
  rw [child, lookup_strip hcompleteness hmeta] at hchild
  refine ⟨insert key new members, ?_, ?_, ?_⟩
  · rw [update, child, hchild, Option.bind_eq_bind, Option.bind_some, hnew]
    rfl
  · rw [setChild, strip_insert hcompleteness hmeta]
  · rw [lookup_insert, if_neg hmeta.symm]

theorem SourceAt.first_open {tokens : List Text} {text : Text} (h : SourceAt tokens (.obj members) text) :
    ∃ key rest, tokens = key :: rest ∧ key ∉ SOURCE_SKIPPED := by
  cases h with
  | here hopen _ _ => exact ⟨_, _, rfl, hopen⟩
  | member hopen _ _ => exact ⟨_, _, rfl, hopen⟩

theorem RowsPath.first_open {tokens : List Text} {rows : List Json} (h : RowsPath tokens (.obj members) (.arr rows)) :
    ∃ key rest, tokens = key :: rest ∧ key ∉ SOURCE_SKIPPED := by
  cases h with
  | member hopen _ _ => exact ⟨_, _, rfl, rows_open hopen⟩

theorem largestSource_some {path : Text} (hdistinct : (Json.obj (strip members)).distinct = true) (h : largestSource (.obj members) = some path) :
    ∃ tokens text, SourceAt tokens (.obj (strip members)) text ∧ 256 < Utf8.size text ∧ path = toPointer tokens := by
  obtain ⟨entry, hentry, rfl⟩ := Option.map_eq_some_iff.mp h
  have hscan := sourceCandidates_scan hdistinct [] none
  rw [sourceCandidates, sourceMembers_strip] at hscan
  rw [sourceCandidates] at hentry
  rw [hentry] at hscan
  rcases hscan.sound with hnone | ⟨_, heq, tokens, text, hsource, hlong, hfound⟩
  · cases hnone
  · cases heq
    exact ⟨tokens, text, hsource, hlong, by rw [hfound, List.nil_append]⟩

theorem largestSource_none (hdistinct : (Json.obj (strip members)).distinct = true) (h : largestSource (.obj members) = none) :
    NoLongSource (.obj (strip members)) := by
  have hscan := sourceCandidates_scan hdistinct [] none
  rw [sourceCandidates, sourceMembers_strip] at hscan
  exact (hscan.complete (Option.map_eq_none_iff.mp h)).2

theorem largestRows_some {path : Text} (hdistinct : (Json.obj (strip members)).distinct = true) (h : largestRows (.obj members) = some path) :
    ∃ tokens rows, RowsPath tokens (.obj (strip members)) (.arr rows) ∧ trimmable rows = true ∧ path = toPointer tokens := by
  obtain ⟨entry, hentry, rfl⟩ := Option.map_eq_some_iff.mp h
  have hscan := rowsCandidates_scan hdistinct [] none
  rw [rowsCandidates, rowsMembers_strip] at hscan
  rw [rowsCandidates] at hentry
  rw [hentry] at hscan
  rcases hscan.sound with hnone | ⟨_, heq, tokens, rows, hpath, hmore, hfound⟩
  · cases hnone
  · cases heq
    exact ⟨tokens, rows, hpath, hmore, by rw [hfound, List.nil_append]⟩

theorem largestRows_none (hdistinct : (Json.obj (strip members)).distinct = true) (h : largestRows (.obj members) = none) :
    NoDroppableRows (.obj (strip members)) := by
  have hscan := rowsCandidates_scan hdistinct [] none
  rw [rowsCandidates, rowsMembers_strip] at hscan
  exact (hscan.complete (Option.map_eq_none_iff.mp h)).2

/-- What a change makes of a state, seen on the value without its disclosure. -/
inductive Changed (envelopeEnabled : Bool) (s : State) (members : Members) : Change → Prop where
  | nothing (selected : largestRows s.value = none) (sources : NoLongSource (.obj (strip members)))
    (rows : NoDroppableRows (.obj (strip members))) : Changed envelopeEnabled s members .nothing
  | cut {tokens : List Text} {text : Text} {members' : Members} (selected : largestSource s.value = some (toPointer tokens)) (source : SourceAt tokens (.obj (strip members)) text) (long : 256 < Utf8.size text)
    (made : update (fun _ => .str (shorten text)) tokens (.obj (strip members)) = some (.obj (strip members')))
    (sameMeta : lookup META members' = lookup META members) :
    Changed envelopeEnabled s members (.changed { s with value := .obj members', shortened := TextMap.addText (toPointer tokens) s.shortened })
  | drop {tokens : List Text} {rows : List Json} {members' : Members} {s' : State}
    (selected : largestSource s.value = none ∧ largestRows s.value = some (toPointer tokens) ∧
      (s.value.pointer (toPointer tokens)).bind asArray = some rows)
    (path : RowsPath tokens (.obj (strip members)) (.arr rows)) (more : trimmable rows = true)
    (made : update (fun _ => .arr rows.dropLast) tokens (.obj (strip members)) = some (.obj (strip members')))
    (sameMeta : lookup META members' = lookup META members) (value : s'.value = .obj members')
    (removed : s'.removed = TextMap.alter (toPointer tokens) (fun count => count.getD 0 + 1) s.removed)
    (shortened : s'.shortened = s.shortened) (counts : envelopeEnabled = true → s'.legacyCounts = s.legacyCounts) :
    Changed envelopeEnabled s members (.changed s')

theorem change_changed {s : State} (envelopeEnabled : Bool) (hvalue : s.value = .obj members)
    (hdistinct : (Json.obj (strip members)).distinct = true) : Changed envelopeEnabled s members (change envelopeEnabled s) := by
  rw [change, hvalue]
  cases hsource : largestSource (.obj members) with
  | some path =>
    obtain ⟨tokens, text, hat, hlong, rfl⟩ := largestSource_some hdistinct hsource
    obtain ⟨key, rest, rfl, hopen⟩ := hat.first_open
    obtain ⟨result, hresult⟩ := exists_update (f := fun _ => .str (shorten text)) hat.follow
    obtain ⟨members', hmade, rfl, hmeta⟩ := update_strip hopen hresult
    have hfollow := hat.follow
    rw [follow_strip hopen] at hfollow
    have hpointer : (s.value.pointer (toPointer (key :: rest))).bind asStr = some text := by
      rw [pointer_toPointer, hvalue, hfollow]
      rfl
    have hupdate : updatePointer (fun _ => .str (shorten text)) (toPointer (key :: rest)) s.value = some (.obj members') := by
      rw [updatePointer, tokensOf_toPointer, hvalue]
      exact hmade
    simp only [shortenSource, hpointer, hupdate]
    exact .cut (by rw [hvalue, hsource]) hat hlong hresult hmeta
  | none =>
    cases hrows : largestRows (.obj members) with
    | none => exact .nothing (by rw [hvalue, hrows]) (largestSource_none hdistinct hsource) (largestRows_none hdistinct hrows)
    | some path =>
      obtain ⟨tokens, rows, hat, hmore, rfl⟩ := largestRows_some hdistinct hrows
      obtain ⟨key, rest, rfl, hopen⟩ := hat.first_open
      obtain ⟨result, hresult⟩ := exists_update (f := fun _ => .arr rows.dropLast) hat.follow
      obtain ⟨members', hmade, rfl, hmeta⟩ := update_strip hopen hresult
      have hfollow := hat.follow
      rw [follow_strip hopen] at hfollow
      have hpointer : (s.value.pointer (toPointer (key :: rest))).bind asArray = some rows := by
        rw [pointer_toPointer, hvalue, hfollow]
        rfl
      have hupdate : updatePointer (fun _ => .arr rows.dropLast) (toPointer (key :: rest)) s.value = some (.obj members') := by
        rw [updatePointer, tokensOf_toPointer, hvalue]
        exact hmade
      have htwo := two_le_of_trimmable hmore
      obtain ⟨dropped, hdropped⟩ : ∃ dropped, rows.getLast? = some dropped :=
        ⟨_, List.getLast?_eq_some_getLast (List.ne_nil_of_length_pos (by omega))⟩
      simp only [popRow, hpointer, hdropped, hupdate]
      refine .drop ⟨by rw [hvalue, hsource], by rw [hvalue, hrows], hpointer⟩ hat hmore hresult hmeta rfl rfl rfl fun henvelope => ?_
      simp [henvelope]

end Changes

section Disclosures

/-- A value changed in nothing but its disclosure. -/
def Discloses (value value' : Json) : Prop :=
  ∀ members, value = .obj members → ∃ members', value' = .obj members' ∧ strip members' = strip members

variable {value value' : Json} {call : Call} {s : State}

theorem Discloses.refl (value : Json) : Discloses value value := fun members h => ⟨members, h, rfl⟩

theorem Discloses.trans {value'' : Json} (h : Discloses value value') (h' : Discloses value' value'') : Discloses value value'' := by
  intro members heq
  obtain ⟨members', heq', hstrip⟩ := h members heq
  obtain ⟨members'', heq'', hstrip'⟩ := h' members' heq'
  exact ⟨members'', heq'', hstrip'.trans hstrip⟩

theorem Discloses.assign {key : Text} {keys : List Text} {new : Json} (hkey : key = COMPLETENESS ∨ key = META)
    (h : Json.assign (key :: keys) new value = some value') : Discloses value value' := by
  rintro members rfl
  obtain ⟨child, -, rfl⟩ := assign_obj h
  exact ⟨_, rfl, strip_insert_disclosure hkey child⟩

theorem Discloses.assignSome {key : Text} {keys : List Text} {new : Option Json} (hkey : key = COMPLETENESS ∨ key = META)
    (h : Trim.assignSome (key :: keys) new value = some value') : Discloses value value' := by
  cases new with
  | none =>
    cases h
    exact .refl value
  | some new => exact .assign hkey h

theorem writeMeta_discloses (h : writeMeta call s value = some value') : Discloses value value' := by
  rw [writeMeta] at h
  split at h
  · cases h
    exact .refl value
  · obtain ⟨_, -, h⟩ := Option.bind_eq_some_iff.mp h
    obtain ⟨_, -, h⟩ := Option.bind_eq_some_iff.mp h
    obtain ⟨_, -, h⟩ := Option.bind_eq_some_iff.mp h
    exact .assign (Or.inr rfl) h

theorem apart {a b c : Text} (h : a ≠ b) (keys more : List Text) : ¬c :: a :: keys <+: c :: b :: more := by
  rw [List.prefix_cons_inj, List.cons_prefix_cons]
  exact fun hboth => h hboth.1

/-- The other keys of a record stay as they are. -/
theorem getIn_assign_beside {a b c : Text} {keys more : List Text} {new : Json} (hne : a ≠ b)
    (h : Json.assign (c :: a :: keys) new value = some value') : getIn (c :: b :: more) value' = getIn (c :: b :: more) value :=
  getIn_assign_apart h (apart hne keys more) (apart hne.symm more keys)

/-- What is written beside the record of this call. -/
structure Beside (value value' : Json) : Prop where
  discloses : Discloses value value'
  recover : ∀ more, getIn (COMPLETENESS :: RECOVER :: more) value' = getIn (COMPLETENESS :: RECOVER :: more) value

theorem Beside.refl (value : Json) : Beside value value := ⟨.refl value, fun _ => rfl⟩

theorem Beside.trans {value'' : Json} (h : Beside value value') (h' : Beside value' value'') : Beside value value'' :=
  ⟨h.discloses.trans h'.discloses, fun more => (h'.recover more).trans (h.recover more)⟩

theorem Beside.assign {key : Text} {keys : List Text} {new : Json} (hne : key ≠ RECOVER)
    (h : Json.assign (COMPLETENESS :: key :: keys) new value = some value') : Beside value value' :=
  ⟨.assign (Or.inl rfl) h, fun _ => getIn_assign_beside hne h⟩

theorem writeReturned_beside {prior : Json} (h : writeReturned prior value = some value') : Beside value value' := by
  have hprior : "prior".toList ≠ RECOVER := by decide
  rw [writeReturned] at h
  split at h
  · obtain ⟨offset, hoffset, h⟩ := Option.bind_eq_some_iff.mp h
    refine Beside.trans ?_ (.assign hprior h)
    rw [writeOffset] at hoffset
    split at hoffset
    · exact .assign hprior hoffset
    · cases hoffset
      exact .refl value
  · cases h
    exact .refl value

theorem writePrior_beside {prior : Json} (h : writePrior prior value = some value') : Beside value value' := by
  obtain ⟨v₁, h₁, h⟩ := Option.bind_eq_some_iff.mp h
  obtain ⟨v₂, h₂, h⟩ := Option.bind_eq_some_iff.mp h
  exact (Beside.assign (by decide) h₁).trans ((writeReturned_beside h₂).trans (.assign (by decide) h))

/-- Something is written in one place of a record, if at all. -/
theorem getIn_assignSome_beside {a b c d : Text} {new : Option Json} {more : List Text} (hne : a ≠ b)
    (h : Trim.assignSome [c, d, a] new value = some value') : getIn (c :: d :: b :: more) value' = getIn (c :: d :: b :: more) value := by
  cases new with
  | none =>
    cases h
    rfl
  | some new =>
    refine getIn_assign_apart h ?_ ?_
    · rw [List.prefix_cons_inj]
      exact apart hne [] more
    · rw [List.prefix_cons_inj]
      exact apart hne.symm more []

theorem writeCompleteness_spec {trimmed : List Json} (h : writeCompleteness call s trimmed value = some value') :
    Discloses value value' ∧ getIn [COMPLETENESS, RECOVER, TRIMMED] value' = some (.arr trimmed) ∧
      getIn [COMPLETENESS, RECOVER, SHORTENED] value' = listed s := by
  rw [writeCompleteness] at h
  obtain ⟨v₁, h₁, h⟩ := Option.bind_eq_some_iff.mp h
  obtain ⟨v₂, h₂, h⟩ := Option.bind_eq_some_iff.mp h
  obtain ⟨v₃, h₃, h⟩ := Option.bind_eq_some_iff.mp h
  obtain ⟨v₄, h₄, h⟩ := Option.bind_eq_some_iff.mp h
  have hlast : Beside v₄ value' := by
    split at h
    · exact writePrior_beside h
    · cases h
      exact .refl _
  have hcompleteness : COMPLETENESS = COMPLETENESS ∨ COMPLETENESS = META := Or.inl rfl
  have htool : ∀ key, key = TRIMMED ∨ key = SHORTENED → getIn [COMPLETENESS, RECOVER, key] v₄ = getIn [COMPLETENESS, RECOVER, key] v₂ := by
    intro key hkey
    have hne : "tool".toList ≠ key ∧ "arguments".toList ≠ key := by rcases hkey with rfl | rfl <;> decide
    rw [getIn_assignSome_beside hne.2 h₄, getIn_assignSome_beside hne.1 h₃]
  refine ⟨?_, ?_, ?_⟩
  · exact (Discloses.assign hcompleteness h₁).trans ((Discloses.assignSome hcompleteness h₂).trans
      ((Discloses.assignSome hcompleteness h₃).trans ((Discloses.assignSome hcompleteness h₄).trans hlast.discloses)))
  · rw [hlast.recover, htool TRIMMED (Or.inl rfl), getIn_assignSome_beside (by decide) h₂]
    exact getIn_assign h₁ [RECOVER, TRIMMED]
  · rw [hlast.recover, htool SHORTENED (Or.inr rfl)]
    cases hlisted : listed s with
    | none =>
      rw [hlisted] at h₂
      cases h₂
      exact getIn_assign h₁ [RECOVER, SHORTENED]
    | some list =>
      rw [hlisted] at h₂
      exact getIn_assign h₂ []

theorem writeLegacy_discloses {trimmed : List Json} (h : writeLegacy call s trimmed value = some value') : Discloses value value' := by
  obtain ⟨v₁, h₁, h⟩ := Option.bind_eq_some_iff.mp h
  obtain ⟨v₂, h₂, h⟩ := Option.bind_eq_some_iff.mp h
  obtain ⟨v₃, h₃, h⟩ := Option.bind_eq_some_iff.mp h
  have hmeta : META = COMPLETENESS ∨ META = META := Or.inr rfl
  exact (Discloses.assign hmeta h₁).trans ((Discloses.assign hmeta h₂).trans ((Discloses.assignSome hmeta h₃).trans (.assignSome hmeta h)))

theorem disclose_discloses {result : Json} (h : disclose call s = some result) : Discloses s.value result := by
  obtain ⟨value, hvalue, h⟩ := Option.bind_eq_some_iff.mp h
  refine (writeMeta_discloses hvalue).trans ?_
  dsimp only at h
  split at h
  · exact (writeCompleteness_spec h).1
  · exact writeLegacy_discloses h

/-- A record with a place for what recovers the rest. -/
def IsRecord (record : Json) : Prop := ∃ members recover, record = .obj members ∧ lookup RECOVER members = some (.obj recover)

theorem IsRecord.assign {record : Json} {key : Text} (h : IsRecord record) (hne : key ≠ RECOVER) (new : Json) :
    ∃ record', Json.assign [key] new record = some record' ∧ IsRecord record' := by
  obtain ⟨members, recover, rfl, hrecover⟩ := h
  exact ⟨_, rfl, _, recover, rfl, by rw [lookup_insert, if_neg hne.symm, hrecover]⟩

theorem IsRecord.assignIn {record : Json} (h : IsRecord record) (key : Text) (new : Json) :
    ∃ record', Json.assign [RECOVER, key] new record = some record' ∧ IsRecord record' := by
  obtain ⟨members, recover, rfl, hrecover⟩ := h
  exact ⟨.obj (insert RECOVER (.obj (insert key new recover)) members), by simp [Json.assign, hrecover], _, insert key new recover, rfl,
    by rw [lookup_insert, if_pos rfl]⟩

/-- A value with such a record in its place. -/
def Holds (members : Members) (value : Json) : Prop := ∃ record, value = .obj (insert COMPLETENESS record members) ∧ IsRecord record

variable {members : Members}

theorem Holds.assign {key : Text} (h : Holds members value) (hne : key ≠ RECOVER) (new : Json) :
    ∃ value', Json.assign [COMPLETENESS, key] new value = some value' ∧ Holds members value' := by
  obtain ⟨record, rfl, hrecord⟩ := h
  obtain ⟨record', hassign, hrecord'⟩ := hrecord.assign hne new
  exact ⟨_, by rw [assign_insert, hassign, Option.map_some], record', rfl, hrecord'⟩

theorem Holds.assignSome (h : Holds members value) (key : Text) (new : Option Json) :
    ∃ value', Trim.assignSome [COMPLETENESS, RECOVER, key] new value = some value' ∧ Holds members value' := by
  cases new with
  | none => exact ⟨value, rfl, h⟩
  | some new =>
    obtain ⟨record, rfl, hrecord⟩ := h
    obtain ⟨record', hassign, hrecord'⟩ := hrecord.assignIn key new
    exact ⟨_, by rw [Trim.assignSome, assign_insert, hassign, Option.map_some], record', rfl, hrecord'⟩

theorem Holds.writePrior (h : Holds members value) (hmeta : lookup META members = none) (prior : Json) :
    ∃ value', Trim.writePrior prior value = some value' ∧ Holds members value' := by
  obtain ⟨v₁, h₁, hholds₁⟩ := @Holds.assign _ _ "prior".toList h (by decide) prior
  obtain ⟨v₂, h₂, hholds₂⟩ := @Holds.assign _ _ "kinds".toList hholds₁ (by decide) (.arr (kindsOf prior))
  have hpointer : v₁.pointer "/_meta/returned".toList = none := by
    obtain ⟨record, rfl, -⟩ := hholds₁
    have htokens : "/_meta/returned".toList = toPointer [META, RETURNED] := by decide
    rw [htokens, pointer_toPointer, follow, child, lookup_insert, if_neg (by decide), hmeta]
    rfl
  have hreturned : writeReturned prior v₁ = some v₁ := by
    rw [writeReturned, hpointer]
    split
    · rename_i heq
      cases heq
    · rfl
  exact ⟨v₂, by simp only [Trim.writePrior, h₁, hreturned, Option.bind_eq_bind, Option.bind_some, h₂], hholds₂⟩

/-- Without `_meta`, the disclosure of a reply in an envelope can always be written. -/
theorem exists_disclose (henvelope : call.envelopeEnabled = true) (hlegacy : call.legacyMeta = none) (hvalue : s.value = .obj members)
    (hmeta : lookup META members = none) :
    ∃ members', disclose call s = some (.obj members') ∧ lookup META members' = none := by
  have hwriteMeta : writeMeta call s s.value = some s.value := by rw [writeMeta, hlegacy]
  obtain ⟨record, hrecord⟩ : ∃ record, record = Json.obj [("kind".toList, .str "truncated".toList),
      (RECOVER, .obj [("detail".toList, .str "standard".toList), (TRIMMED, .arr (s.removed.map (fieldOf s s.value)))])] := ⟨_, rfl⟩
  have hstart : Holds members (.obj (insert COMPLETENESS record members)) := ⟨record, rfl, _, _, hrecord, rfl⟩
  have hassign : Json.assign [COMPLETENESS] record s.value = some (.obj (insert COMPLETENESS record members)) := by rw [hvalue]; rfl
  obtain ⟨v₂, h₂, hholds₂⟩ := hstart.assignSome SHORTENED (listed s)
  obtain ⟨v₃, h₃, hholds₃⟩ := hholds₂.assignSome "tool".toList (call.retry.map fun retry => (retry.get "tool".toList).getD .null)
  obtain ⟨v₄, h₄, hholds₄⟩ := hholds₃.assignSome "arguments".toList (call.retry.map fun retry => (retry.get "arguments".toList).getD .null)
  have hend : ∀ v, Holds members v → ∃ members', some v = some (.obj members') ∧ lookup META members' = none := by
    rintro v ⟨last, rfl, -⟩
    exact ⟨insert COMPLETENESS last members, rfl, by rw [lookup_insert, if_neg (by decide), hmeta]⟩
  rw [disclose, hwriteMeta, Option.bind_eq_bind, Option.bind_some, if_pos henvelope, writeCompleteness, ← hrecord, hassign]
  simp only [Option.bind_eq_bind, Option.bind_some, h₂, h₃, h₄]
  cases call.prior with
  | none => exact hend v₄ hholds₄
  | some prior =>
    obtain ⟨v₅, h₅, hholds₅⟩ := hholds₄.writePrior hmeta prior
    obtain ⟨members', hvalue, hlookup⟩ := hend v₅ hholds₅
    exact ⟨members', h₅.trans hvalue, hlookup⟩

end Disclosures

section Loop

/-- What holds before each round: the value has come about by these steps, which the books tell. -/
structure Inv (call : Call) (first : Json) (s : State) (events : List Event) (members : Members) : Prop where
  value : s.value = .obj members
  run : Run first events (.obj (strip members))
  removed : ∀ entry ∈ s.removed, ∃ tokens, entry.1 = toPointer tokens ∧ .drop tokens ∈ events ∧ entry.2 = events.count (.drop tokens)
  counted : ∀ tokens, .drop tokens ∈ events → toPointer tokens ∈ s.removed.map Prod.fst
  shortened : ∀ path, path ∈ s.shortened ↔ ∃ tokens, .cut tokens ∈ events ∧ path = toPointer tokens
  noMeta : call.legacyMeta = none → lookup META members = none ∧ s.legacyCounts = []

variable {call : Call} {first : Json} {s s' : State} {events : List Event} {members : Members}

theorem Inv.cut {tokens : List Text} {text : Text} {members' : Members} (h : Inv call first s events members)
    (source : SourceAt tokens (.obj (strip members)) text) (long : 256 < Utf8.size text)
    (made : update (fun _ => .str (shorten text)) tokens (.obj (strip members)) = some (.obj (strip members')))
    (sameMeta : lookup META members' = lookup META members) :
    Inv call first { s with value := .obj members', shortened := TextMap.addText (toPointer tokens) s.shortened } (events ++ [.cut tokens]) members' where
  value := rfl
  run := .cut h.run source long made
  removed entry hentry := by
    obtain ⟨place, hpath, hmem, hcount⟩ := h.removed entry hentry
    exact ⟨place, hpath, List.mem_append_left _ hmem, by simp [hcount]⟩
  counted place hmem := h.counted place (by simpa using hmem)
  shortened path := by
    rw [TextMap.mem_addText, h.shortened]
    constructor
    · rintro (rfl | ⟨place, hmem, rfl⟩)
      · exact ⟨tokens, by simp, rfl⟩
      · exact ⟨place, List.mem_append_left _ hmem, rfl⟩
    · rintro ⟨place, hmem, rfl⟩
      rcases List.mem_append.mp hmem with hmem | hmem
      · exact Or.inr ⟨place, hmem, rfl⟩
      · cases List.mem_singleton.mp hmem
        exact Or.inl rfl
  noMeta hlegacy := by
    rw [sameMeta]
    exact h.noMeta hlegacy

theorem Inv.drop {tokens : List Text} {rows : List Json} {members' : Members} (h : Inv call first s events members)
    (henvelope : call.legacyMeta = none → call.envelopeEnabled = true)
    (path : RowsPath tokens (.obj (strip members)) (.arr rows)) (more : trimmable rows = true)
    (made : update (fun _ => .arr rows.dropLast) tokens (.obj (strip members)) = some (.obj (strip members')))
    (sameMeta : lookup META members' = lookup META members) (value : s'.value = .obj members')
    (removed : s'.removed = TextMap.alter (toPointer tokens) (fun count => count.getD 0 + 1) s.removed)
    (shortened : s'.shortened = s.shortened) (counts : call.envelopeEnabled = true → s'.legacyCounts = s.legacyCounts) :
    Inv call first s' (events ++ [.drop tokens]) members' where
  value := value
  run := .drop h.run path more made
  removed entry hentry := by
    rw [removed] at hentry
    rcases TextMap.mem_alter hentry with ⟨hmem, hne⟩ | ⟨hkey, hnew | ⟨old, hold, hcount⟩⟩
    · obtain ⟨place, hpath, hdrop, hcount⟩ := h.removed entry hmem
      have hother : place ≠ tokens := fun heq => hne (by rw [hpath, heq])
      refine ⟨place, hpath, List.mem_append_left _ hdrop, ?_⟩
      rw [hcount]
      simp [Ne.symm hother]
    · have hnone : events.count (.drop tokens) = 0 := List.count_eq_zero.mpr fun hmem => hnew.2 (h.counted tokens hmem)
      refine ⟨tokens, hkey, by simp, ?_⟩
      rw [hnew.1, List.count_append, hnone, List.count_singleton_self]
      rfl
    · obtain ⟨place, hpath, hdrop, hbefore⟩ := h.removed _ hold
      cases toPointer_injective hpath
      refine ⟨tokens, hkey, by simp, ?_⟩
      rw [hcount, Option.getD_some, List.count_append, List.count_singleton_self]
      exact congrArg (· + 1) hbefore
  counted place hmem := by
    have hkeys : ∀ key, key = toPointer tokens ∨ key ∈ s.removed.map Prod.fst → key ∈ s'.removed.map Prod.fst := by
      rw [removed]
      exact fun key => TextMap.mem_keys_alter.mpr
    rcases List.mem_append.mp hmem with hmem | hmem
    · exact hkeys _ (Or.inr (h.counted place hmem))
    · cases List.mem_singleton.mp hmem
      exact hkeys _ (Or.inl rfl)
  shortened place := by
    rw [shortened, h.shortened]
    simp
  noMeta hlegacy := by
    rw [sameMeta, counts (henvelope hlegacy)]
    exact h.noMeta hlegacy

/-- The disclosure in a value is the one of the books beside it. -/
def Told (call : Call) (s : State) : Prop := ∃ members, disclose call { s with value := .obj members } = some s.value

theorem Inv.disclose {value : Json} (h : Inv call first s events members) (henvelope : call.legacyMeta = none → call.envelopeEnabled = true)
    (hvalue : Trim.disclose call s = some value) : ∃ members', Inv call first { s with value := value } events members' := by
  obtain ⟨members', hmembers', hstrip⟩ := disclose_discloses hvalue members h.value
  refine ⟨members', hmembers', hstrip ▸ h.run, h.removed, h.counted, h.shortened, fun hlegacy => ⟨?_, (h.noMeta hlegacy).2⟩⟩
  obtain ⟨written, hwritten, hmeta⟩ := exists_disclose (henvelope hlegacy) hlegacy h.value (h.noMeta hlegacy).1
  rw [hvalue, hmembers'] at hwritten
  cases hwritten
  exact hmeta

/-- How a loop that starts so ends: within the budget or with nothing left to take; it does not panic where there is no
`_meta`, and runs out of fuel only where the fuel is less than the weight. -/
def Ends (call : Call) (first : Json) (fuel : Nat) (s : State) (events : List Event) : Outcome → Prop
  | .returned s' => ∃ more members, Inv call first s' (events ++ more) members ∧
      (s'.value.size ≤ call.budget ∨ NoLongSource (.obj (strip members)) ∧ NoDroppableRows (.obj (strip members))) ∧
      (more = [] ∧ s' = s ∨ Told call s')
  | .panic => call.legacyMeta ≠ none
  | .outOfFuel => fuel + events.length ≤ first.weight

theorem Ends.next {fuel : Nat} {event : Event} {outcome : Outcome} (htold : Told call s')
    (h : Ends call first fuel s' (events ++ [event]) outcome) : Ends call first (fuel + 1) s events outcome := by
  cases outcome with
  | returned s'' =>
    obtain ⟨more, members, hinv, hexit, hlast⟩ := h
    refine ⟨event :: more, members, by simpa using hinv, hexit, Or.inr ?_⟩
    rcases hlast with ⟨-, rfl⟩ | hlast
    · exact htold
    · exact hlast
  | panic => exact h
  | outOfFuel =>
    simp only [Ends, List.length_append, List.length_singleton] at h ⊢
    omega

theorem trimLoop_ends (henvelope : call.legacyMeta = none → call.envelopeEnabled = true) (hdistinct : first.distinct = true) (fuel : Nat)
    (h : Inv call first s events members) : Ends call first fuel s events (trimLoop call fuel s) := by
  induction fuel generalizing s events members with
  | zero =>
    have := h.run.weight
    simp only [trimLoop, Ends]
    omega
  | succ fuel ih =>
    rw [trimLoop]
    split
    · have hround : ∀ {s' : State} {event : Event} {members' : Members} {outcome : Outcome}, Inv call first s' (events ++ [event]) members' →
          (disclose call s' = none → outcome = .panic) →
          (∀ value, disclose call s' = some value → outcome = trimLoop call fuel { s' with value := value }) →
          Ends call first (fuel + 1) s events outcome := by
        intro s' event members' outcome hinv hpanic hnext
        cases hvalue : disclose call s' with
        | none =>
          rw [hpanic hvalue]
          intro hlegacy
          obtain ⟨written, hwritten, -⟩ := exists_disclose (henvelope hlegacy) hlegacy hinv.value (hinv.noMeta hlegacy).1
          rw [hvalue] at hwritten
          cases hwritten
        | some value =>
          rw [hnext value hvalue]
          obtain ⟨members'', hinv'⟩ := hinv.disclose henvelope hvalue
          exact Ends.next ⟨members', by rw [← hinv.value]; exact hvalue⟩ (ih hinv')
      have hchanged := change_changed call.envelopeEnabled h.value (h.run.distinct hdistinct)
      generalize change call.envelopeEnabled s = result at hchanged
      cases hchanged with
      | nothing _ sources rows => exact ⟨[], members, by rwa [List.append_nil], Or.inr ⟨sources, rows⟩, Or.inl ⟨rfl, rfl⟩⟩
      | cut _ source long made sameMeta =>
        refine hround (h.cut source long made sameMeta) (fun hnone => ?_) fun value hvalue => ?_
        · simp only [hnone]
        · simp only [hvalue]
      | drop _ path more made sameMeta value removed shortened counts =>
        refine hround (h.drop henvelope path more made sameMeta value removed shortened counts) (fun hnone => ?_) fun value hvalue => ?_
        · simp only [hnone]
        · simp only [hvalue]
    · exact ⟨[], members, by rwa [List.append_nil], Or.inl (Nat.le_of_not_lt ‹_›), Or.inl ⟨rfl, rfl⟩⟩

end Loop

section Calls

variable {object : JsonObject} {budget : Nat} {retry : Option Json} {envelopeEnabled : Bool}

theorem start_inv : Inv (callOf object.value budget retry envelopeEnabled) (.obj (strip object.members))
    (start object.value (callOf object.value budget retry envelopeEnabled)) [] object.members where
  value := rfl
  run := .start
  removed := nofun
  counted := nofun
  shortened path := ⟨nofun, nofun⟩
  noMeta hlegacy := by
    rw [start, hlegacy]
    refine ⟨?_, rfl⟩
    simp only [callOf, Option.or_eq_none_iff] at hlegacy
    exact hlegacy.1

theorem callOf_envelope (h : (callOf object.value budget retry envelopeEnabled).legacyMeta = none) : envelopeEnabled = true := by
  simp only [callOf, Option.or_eq_none_iff] at h
  by_contra hnot
  rw [if_neg hnot] at h
  cases h.2

/-- With as much fuel as the value has weight, a call does not run out of it. -/
theorem trimToBudget_ends (fuel : Nat) :
    Ends (callOf object.value budget retry envelopeEnabled) (.obj (strip object.members)) fuel
      (start object.value (callOf object.value budget retry envelopeEnabled)) [] (trimToBudget fuel object.value budget retry envelopeEnabled) :=
  trimLoop_ends callOf_envelope (distinct_strip object.distinct) fuel start_inv

/-- The way to a value through members under no key where rows are kept. -/
inductive OpenPath : List Text → Json → Json → Prop where
  | here (value : Json) : OpenPath [] value value
  | member {members : Members} {key : Text} {value target : Json} {tokens : List Text} (open_ : key ∉ ROWS_SKIPPED)
    (found : lookup key members = some value) (rest : OpenPath tokens value target) : OpenPath (key :: tokens) (.obj members) target
  | row {rows : List Json} {i : Nat} {row target : Json} {tokens : List Text} (found : rows[i]? = some row)
    (rest : OpenPath tokens row target) : OpenPath (decimal i :: tokens) (.arr rows) target

/-- Nothing is left to take: no long source, no array whose rows may be dropped. -/
def Exhausted (value : Json) : Prop := NoLongSource value ∧ ∀ tokens rows, OpenPath tokens value (.arr rows) → trimmable rows = false

theorem NoDroppableRows.everywhere {value target : Json} {tokens : List Text} (h : NoDroppableRows value) (hpath : OpenPath tokens value target) :
    ∀ rows, target = .arr rows → trimmable rows = false := by
  induction hpath with
  | here value =>
    rintro rows rfl
    exact h [] rows (.here _)
  | member hopen hfound _ ih => exact ih fun tokens rows hrest => h _ rows (.member hopen hfound hrest)
  | row hfound _ ih => exact ih fun tokens rows hrest => h _ rows (.row (h [] _ (.here _)) hfound hrest)

theorem exhausted_of_strip {members : Members} (hsources : NoLongSource (.obj (strip members))) (hrows : NoDroppableRows (.obj (strip members))) :
    Exhausted (.obj members) := by
  refine ⟨fun tokens text hsource => hsources tokens text ?_, fun tokens rows hpath => ?_⟩
  · have hlookup : ∀ {key : Text}, key ∉ SOURCE_SKIPPED → lookup key (strip members) = lookup key members :=
      fun hopen => lookup_strip (open_ne hopen).1 (open_ne hopen).2
    cases hsource with
    | here hopen hkey hfound => exact .here hopen hkey ((hlookup hopen).trans hfound)
    | member hopen hfound hrest => exact .member hopen ((hlookup hopen).trans hfound) hrest
  · refine NoDroppableRows.everywhere (fun tokens rows hpath => ?_) hpath rows rfl
    cases hpath with
    | member hopen hfound hrest =>
      have hlookup := @lookup_strip members _ (open_ne (rows_open hopen)).1 (open_ne (rows_open hopen)).2
      exact hrows _ rows (.member hopen (hlookup.trans hfound) hrest)

/-- An entry of the disclosure names an array, with the rows it has and the rows it had. -/
def Accounted (before after entry : Json) : Prop :=
  ∃ path rows rows' omitted, entry.get FIELD = some (.str path) ∧ before.pointer path = some (.arr rows) ∧
    after.pointer path = some (.arr rows') ∧ rows' ≠ [] ∧ entry.get RETURNED = some (number rows'.length) ∧
    entry.get OMITTED = some (number omitted) ∧ rows'.length + omitted = rows.length

theorem told_accounts {call : Call} {s : State} {events : List Event} {members : Members} (henvelope : call.envelopeEnabled = true)
    (hlegacy : call.legacyMeta = none) (h : Inv call (.obj (strip object.members)) s events members) (htold : Told call s) :
    ∃ entries, s.value.getIn [COMPLETENESS, RECOVER, TRIMMED] = some (.arr entries) ∧
      ∀ entry ∈ entries, Accounted object.value s.value entry := by
  obtain ⟨before, htold⟩ := htold
  obtain ⟨members', hmembers', hstrip⟩ := disclose_discloses htold before rfl
  rw [h.value] at hmembers'
  cases hmembers'
  rw [disclose, writeMeta, hlegacy, Option.bind_eq_bind, Option.bind_some, if_pos henvelope] at htold
  refine ⟨_, (writeCompleteness_spec htold).2.1, fun entry hentry => ?_⟩
  obtain ⟨⟨path, count⟩, hremoved, rfl⟩ := List.mem_map.mp hentry
  obtain ⟨tokens, hpath, hdrop, hcount⟩ := h.removed _ hremoved
  dsimp only at hpath hcount
  subst hpath
  obtain ⟨rows', hrows', hne⟩ := h.run.dropped hdrop
  obtain ⟨rows, hrows, hlength⟩ := h.run.length hrows'.follow
  obtain ⟨key, rest, rfl, hopen⟩ := hrows'.first_open
  have hfollow : ∀ {members : Members} {found : Json}, follow (key :: rest) (.obj (strip members)) = some found →
      (Json.obj members).pointer (toPointer (key :: rest)) = some found := by
    intro members found hfound
    rw [pointer_toPointer, ← follow_strip hopen, hfound]
  have hlengthAt : lengthAt (.obj before) (toPointer (key :: rest)) = rows'.length := by
    rw [lengthAt, hfollow (hstrip ▸ hrows'.follow)]
    rfl
  obtain ⟨handles, hfield⟩ : ∃ handles, fieldOf { s with value := .obj before } (.obj before) (toPointer (key :: rest), count) =
      .obj ([(FIELD, .str (toPointer (key :: rest))), (RETURNED, number rows'.length), (OMITTED, number count)] ++ handles) :=
    ⟨_, by simp only [fieldOf, hlengthAt, (h.noMeta hlegacy).2, List.find?_nil]; rfl⟩
  refine ⟨toPointer (key :: rest), rows, rows', count, ?_, hfollow hrows, by rw [h.value]; exact hfollow hrows'.follow, hne, ?_, ?_, ?_⟩
  · rw [hfield]
    rfl
  · rw [hfield]
    rfl
  · rw [hfield]
    rfl
  · rw [hcount]
    exact hlength

/-- A reply without `_meta` is brought within its budget, or to where nothing is left to take. It keeps all but the ends of
source texts and of arrays of rows; and where anything was taken, the disclosure accounts for the rows. -/
theorem trim_to_budget_accounts (hmeta : object.value.get META = none) {fuel : Nat} (hfuel : object.value.weight < fuel) :
    ∃ s members, trimToBudget fuel object.value budget retry true = .returned s ∧ s.value = .obj members ∧
      (s.value.size ≤ budget ∨ Exhausted s.value) ∧ lookup META members = none ∧ Kept true (.obj (strip object.members)) (.obj (strip members)) ∧
      (s.value = object.value ∨ ∃ entries, s.value.getIn [COMPLETENESS, RECOVER, TRIMMED] = some (.arr entries) ∧
        ∀ entry ∈ entries, Accounted object.value s.value entry) := by
  have hends := @trimToBudget_ends object budget retry true fuel
  have hlegacy : (callOf object.value budget retry true).legacyMeta = none := by simp [callOf, hmeta]
  cases houtcome : trimToBudget fuel object.value budget retry true with
  | returned s =>
    rw [houtcome] at hends
    obtain ⟨more, members, hinv, hexit, hlast⟩ := hends
    refine ⟨s, members, rfl, hinv.value, ?_, (hinv.noMeta hlegacy).1, hinv.run.kept, ?_⟩
    · refine hexit.imp_right fun hnothing => ?_
      rw [hinv.value]
      exact exhausted_of_strip hnothing.1 hnothing.2
    · rcases hlast with ⟨-, rfl⟩ | htold
      · exact Or.inl rfl
      · exact Or.inr (told_accounts rfl hlegacy hinv htold)
  | panic =>
    rw [houtcome] at hends
    exact absurd hlegacy hends
  | outOfFuel =>
    rw [houtcome] at hends
    have hstrip := weight_strip object.members
    simp only [Ends, List.length_nil] at hends
    rw [JsonObject.value] at hfuel
    omega

/-- A reply of two rows. -/
def twoRows : JsonObject where
  members := [("results".toList, .arr [.obj [("name".toList, .str ['a'])], .obj [("name".toList, .str ['b'])]])]
  distinct := by decide

theorem trim_to_budget_accounts_two_rows :
    ∃ s members, trimToBudget 20 twoRows.value 1 none true = .returned s ∧ s.value = .obj members ∧
      (s.value.size ≤ 1 ∨ Exhausted s.value) ∧ lookup META members = none ∧ Kept true (.obj (strip twoRows.members)) (.obj (strip members)) ∧
      (s.value = twoRows.value ∨ ∃ entries, s.value.getIn [COMPLETENESS, RECOVER, TRIMMED] = some (.arr entries) ∧
        ∀ entry ∈ entries, Accounted twoRows.value s.value entry) :=
  trim_to_budget_accounts rfl (by decide)

/-- A small reply that already speaks of rows dropped from an array it does not have. -/
def strayEntry : JsonObject where
  members := [(COMPLETENESS, .obj [(RECOVER, .obj [(TRIMMED, .arr [.obj [(FIELD, .str "/x".toList)]])])])]
  distinct := by decide

/-- A reply within its budget stays as it is, whatever it says. -/
theorem stray_entry_stays :
    ¬∃ s, trimToBudget 20 strayEntry.value 1000 none true = .returned s ∧
      ∀ entries, s.value.getIn [COMPLETENESS, RECOVER, TRIMMED] = some (.arr entries) → ∀ entry ∈ entries, Accounted strayEntry.value s.value entry := by
  rintro ⟨s, hs, haccounted⟩
  have hrun : trimToBudget 20 strayEntry.value 1000 none true = .returned (start strayEntry.value (callOf strayEntry.value 1000 none true)) := rfl
  cases hrun.symm.trans hs
  obtain ⟨path, rows, _, _, hpath, hrows, -⟩ := haccounted _ rfl _ List.mem_cons_self
  cases hpath
  cases hrows

end Calls

end Trim
end Mcp
end CodeSage
