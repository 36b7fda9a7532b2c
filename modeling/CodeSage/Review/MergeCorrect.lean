import CodeSage.Review.Merge
import CodeSage.Review.ValidateCorrect
import Mathlib.Data.List.Dedup

/-!
# CodeSage.Review.MergeCorrect

A merge of a result with the document it was validated against keeps every stored finding, in order (`Kept`), and
adds the imported priors and the new findings that were not refuted.
-/

namespace CodeSage
namespace Review

open Lib

section Spec

/-- The finding is one that this merge looks for. -/
def InScope (i : MergeInput) (id : Text) : Prop := i.mode = .review ∨ id ∈ i.targets

/-- A magnitude that an acknowledgement does not cover. -/
def NotCovered (magnitude : Option Magnitude) (ack : Acknowledgement) : Prop :=
  ∀ m, magnitude = some m → m.metric ≠ ack.metric ∨ ack.value < m.value

/-- The finding was opened, by what the response returned in scope, and the history says so. -/
structure Reopened (i : MergeInput) (v : Validated) (old new : Finding) : Prop where
  opened : new.status = .opened
  scope : InScope i old.findingId
  cause : ∃ update ∈ v.findings, update.findingId = old.findingId ∧ (old.status = .fixed ∨
    (old.status = .falsePositive ∨ old.status = .wontFix) ∧
      ∃ ack, old.acknowledgement = some ack ∧ NotCovered update.magnitude ack)
  recorded : ∃ appended, new.history = old.history ++ appended ∧
    ∃ event ∈ appended, event.fromStatus = some old.status ∧ event.toStatus = some .opened

/-- What a merge does to a stored finding. -/
structure Kept (i : MergeInput) (v : Validated) (old new : Finding) : Prop where
  id : new.findingId = old.findingId
  history : old.history <+: new.history
  status : new.status = old.status ∨ Reopened i v old new
  untouched : (¬InScope i old.findingId ∨ old.findingId ∉ v.findings.map (·.findingId) ∧ old.status ≠ .opened) →
    ∃ destinations, new = { old with ackTransferredTo := destinations }

/-- A new finding: what was returned, opened. -/
structure Added (v : Validated) (id : Text) (new : Finding) : Prop where
  id : new.findingId = id
  content : new.toAccepted ∈ v.findings
  opened : new.status = .opened

def isRefuted (verdicts : List Verdict) (id : Text) : Bool := (verdictFor verdicts id).verdict = some "refuted".toList

/-- The findings of the new document: those of the old one, the imported priors in a review, the new ones. -/
structure MergeKeeps (i : MergeInput) (existing : Document) (v : Validated) (document : Document) : Prop where
  parts : ∃ kept imported added, document.findings = kept ++ imported ++ added ∧
    List.Forall₂ (Kept i v) existing.findings kept ∧
    List.Forall₂ (Kept i v) (if i.mode = .review then v.importedPriors else []) imported ∧
    List.Forall₂ (Added v) ((newFindingIds i.mode v).filter fun id => !isRefuted i.verdicts id) added
  distinct : document.ids.Nodup

end Spec

section Prior

variable {c : Context} {current : Finding} {update : Accepted} {reason : Text}

theorem seenAgain_status : (seenAgain c current).status = current.status := by
  unfold seenAgain
  split
  · split <;> rfl
  · rfl

theorem seenAgain_accepted : (seenAgain c current).toAccepted = current.toAccepted := by
  unfold seenAgain
  split
  · split <;> rfl
  · rfl

theorem seenAgain_acknowledgement : (seenAgain c current).acknowledgement = current.acknowledgement := by
  unfold seenAgain
  split
  · split <;> rfl
  · rfl

theorem seenAgain_history : current.history <+: (seenAgain c current).history := by
  unfold seenAgain
  split
  · split
    · exact List.prefix_append _ _
    · exact List.prefix_refl _
  · exact List.prefix_refl _

theorem reopenFixed_accepted : (reopenFixed c current).toAccepted = current.toAccepted := by
  unfold reopenFixed
  split
  · split <;> rfl
  · split <;> rfl

theorem reopenFixed_acknowledgement (c : Context) (current : Finding) : (reopenFixed c current).acknowledgement = current.acknowledgement := by
  unfold reopenFixed
  split
  · split <;> rfl
  · split <;> rfl

/-- Only a fixed finding changes its status, and the event says so. -/
theorem reopenFixed_status (c : Context) (current : Finding) : (current.status ≠ .fixed → (reopenFixed c current).status = current.status) ∧
    (current.status = .fixed → (reopenFixed c current).status = .opened ∧
      ∃ event, (reopenFixed c current).history = current.history ++ [event] ∧
        event.fromStatus = some .fixed ∧ event.toStatus = some .opened) := by
  unfold reopenFixed
  split
  all_goals
    constructor
    · intro hnot
      exact (congrArg Finding.status (if_neg hnot)).trans rfl
    · intro hfixed
      rw [if_pos hfixed]
      exact ⟨rfl, _, rfl, rfl, rfl⟩

theorem reopenFixed_history : current.history <+: (reopenFixed c current).history := by
  unfold reopenFixed
  split
  · split
    · exact List.prefix_append _ _
    · exact List.prefix_append _ _
  · split
    · exact List.prefix_append _ _
    · exact List.prefix_refl _

theorem staleReason_notCovered {magnitude : Option Magnitude} {ack : Acknowledgement}
    (h : staleReason magnitude ack = some reason) : NotCovered magnitude ack := by
  rintro m rfl
  simp only [staleReason] at h
  split at h
  · rename_i hmetric
    exact .inl hmetric
  · split at h
    · rename_i hvalue
      exact .inr hvalue
    · cases h

theorem ackCheck_eq_some (h : ackCheck current = some (some reason)) :
    (current.status = .falsePositive ∨ current.status = .wontFix) ∧
      ∃ ack, current.acknowledgement = some ack ∧ NotCovered current.magnitude ack := by
  unfold ackCheck at h
  split at h
  · rename_i ack hack
    split at h
    · rename_i hstatus
      rw [Bool.or_eq_true, decide_eq_true_iff, decide_eq_true_iff] at hstatus
      exact ⟨hstatus, ack, hack, staleReason_notCovered (Option.some_inj.mp h)⟩
    · cases h
  · cases h

theorem mergeAck_fst {findingId : Text} (s : Summary) : (mergeAck c findingId current s).1 =
    match ackCheck current with
    | some (some reason) => reopenAck c current reason
    | _ => current := by
  unfold mergeAck
  cases ackCheck current with
  | none => rfl
  | some found => cases found <;> rfl

end Prior

section Kept

variable {i : MergeInput} {existing : Document} {v : Validated} {update : Accepted} {prior : Finding}

/-- A stored finding that was returned, in a merge that looks for it. -/
theorem mergeReturned_kept (hupdate : update ∈ v.findings) (hid : update.findingId = prior.findingId)
    (hscope : InScope i prior.findingId) (s : Summary) :
    Kept i v prior (mergeReturned (mergeContext i v) update prior s).1 := by
  set c := mergeContext i v
  set seen := seenAgain c (takeUpdate c update prior) with hseen
  have hstatus : seen.status = prior.status := seenAgain_status
  have hack : seen.acknowledgement = prior.acknowledgement := seenAgain_acknowledgement
  have haccepted : seen.toAccepted = update := seenAgain_accepted
  have hhistory : prior.history <+: seen.history := by
    have htaken : (takeUpdate c update prior).history = prior.history := rfl
    rw [← htaken]
    exact seenAgain_history
  have hfst : (mergeReturned c update prior s).1 = match ackCheck (reopenFixed c seen) with
      | some (some reason) => reopenAck c (reopenFixed c seen) reason
      | _ => reopenFixed c seen := mergeAck_fst _
  have hreturned : prior.findingId ∈ v.findings.map (·.findingId) := hid ▸ List.mem_map_of_mem hupdate
  have huntouched : ∀ new, (¬InScope i prior.findingId ∨
      prior.findingId ∉ v.findings.map (·.findingId) ∧ prior.status ≠ .opened) →
      ∃ destinations, new = { prior with ackTransferredTo := destinations } :=
    fun _ hout => (hout.elim (fun hno => hno hscope) fun hno => hno.1 hreturned).elim
  obtain ⟨hsame, hreopened⟩ := reopenFixed_status c seen
  have hkeptId : (reopenFixed c seen).findingId = prior.findingId := by
    rw [reopenFixed_accepted, haccepted, hid]
  have hfixedHistory : prior.history <+: (reopenFixed c seen).history := hhistory.trans reopenFixed_history
  rw [hfst]
  split
  · -- the acknowledgement does not cover what was returned
    rename_i reason hreason
    obtain ⟨hsilenced, ack, hack', hcover⟩ := ackCheck_eq_some hreason
    have hnot : seen.status ≠ .fixed := by
      intro hfixed
      rw [(hreopened hfixed).1] at hsilenced
      exact hsilenced.elim nofun nofun
    have hprior : (reopenFixed c seen).status = prior.status := (hsame hnot).trans hstatus
    have ⟨before, hbefore⟩ := hfixedHistory
    have hlogged : (reopenAck c (reopenFixed c seen) reason).history =
        (reopenFixed c seen).history ++ [ackReopened c (reopenFixed c seen).status reason] := rfl
    refine ⟨hkeptId, hfixedHistory.trans (List.prefix_append _ _), .inr ⟨rfl, hscope, ?_, ?_⟩, huntouched _⟩
    · refine ⟨update, hupdate, hid, .inr ⟨hprior ▸ hsilenced, ack, ?_, ?_⟩⟩
      · rw [← hack, ← reopenFixed_acknowledgement c seen]
        exact hack'
      · rw [reopenFixed_accepted, haccepted] at hcover
        exact hcover
    · refine ⟨before ++ [ackReopened c (reopenFixed c seen).status reason], ?_, _,
        List.mem_append_right _ (List.mem_singleton_self _), congrArg some hprior, rfl⟩
      rw [hlogged, ← hbefore, List.append_assoc]
  · by_cases hfixed : seen.status = .fixed
    · obtain ⟨hopened, event, hevent, hfrom, hto⟩ := hreopened hfixed
      have hold : prior.status = .fixed := hstatus.symm.trans hfixed
      obtain ⟨before, hbefore⟩ := hhistory
      refine ⟨hkeptId, hfixedHistory, .inr ⟨hopened, hscope, ⟨update, hupdate, hid, .inl hold⟩, before ++ [event], ?_,
        event, List.mem_append_right _ (List.mem_singleton_self _), hfrom.trans (congrArg some hold.symm), hto⟩,
        huntouched _⟩
      rw [hevent, ← hbefore, List.append_assoc]
    · exact ⟨hkeptId, hfixedHistory, .inl ((hsame hfixed).trans hstatus), huntouched _⟩

/-- What a merge takes as returned: the accepted findings that are not out of its scope. -/
theorem returned_lookup (hwf : v.WellFormed) {id : Text} : (returned i v).lookup id = some update ↔
    update ∈ v.findings ∧ update.findingId = id ∧ id ∉ outOfScope i v := by
  have hnodup : (v.findings.map (·.findingId)).Nodup := hwf.findings.nodup_iff.mp hwf.nodup
  have hkeys : (((v.findings.filter fun finding => finding.findingId ∉ outOfScope i v).map
      fun finding => (finding.findingId, finding)).map Prod.fst).Nodup := by
    rw [List.map_map]
    exact hnodup.sublist (List.filter_sublist.map _)
  rw [returned, Table.lookup_collect hkeys, List.mem_map]
  constructor
  · rintro ⟨finding, hmem, heq⟩
    cases heq
    obtain ⟨hmem, hscope⟩ := List.mem_filter.mp hmem
    exact ⟨hmem, rfl, of_decide_eq_true hscope⟩
  · rintro ⟨hmem, rfl, hscope⟩
    exact ⟨update, List.mem_filter.mpr ⟨hmem, decide_eq_true hscope⟩, rfl⟩

/-- A recurring finding that is returned is looked for. -/
theorem inScope_of_returned {id : Text} (hrecurring : id ∈ recurringFindingIds i.mode v) (hreturned : id ∉ outOfScope i v) :
    InScope i id := by
  by_contra hscope
  obtain ⟨hmode, htarget⟩ := not_or.mp hscope
  refine hreturned ?_
  unfold outOfScope
  cases h : i.mode with
  | review => exact absurd h hmode
  | revalidate =>
    rw [h] at hrecurring
    exact List.mem_filter.mpr ⟨hrecurring, decide_eq_true htarget⟩

theorem inScope_iff {id : Text} : inScope (mergeContext i v) id = true ↔ InScope i id := by
  rw [inScope, Bool.or_eq_true, decide_eq_true_iff, decide_eq_true_iff]
  rfl

/-- A stored finding that was not returned. -/
theorem mergeMissing_kept (s : Summary) : Kept i v prior (mergeMissing (mergeContext i v) prior s).1 := by
  unfold mergeMissing
  split
  · rename_i hlooked
    simp only [Bool.and_eq_true, decide_eq_true_iff, inScope_iff] at hlooked
    refine ⟨rfl, List.prefix_append _ _, .inl rfl, fun hout => ?_⟩
    exact (hout.elim (fun hno => hno hlooked.1.2) fun hno => hno.2 hlooked.1.1).elim
  · exact ⟨rfl, List.prefix_refl _, .inl rfl, fun _ => ⟨prior.ackTransferredTo, rfl⟩⟩

theorem mergePrior_kept (hwf : v.WellFormed) (hscope : ∀ update, (returned i v).lookup prior.findingId = some update →
    InScope i prior.findingId) (s : Summary) : Kept i v prior (mergePrior (mergeContext i v) prior s).1 := by
  unfold mergePrior
  split
  · exact ⟨rfl, List.prefix_refl _, .inl rfl, fun _ => ⟨_, rfl⟩⟩
  · split
    · rename_i update hupdate
      obtain ⟨hmem, hid, -⟩ := (returned_lookup hwf).mp hupdate
      exact mergeReturned_kept hmem hid (hscope update hupdate) s
    · exact mergeMissing_kept s

theorem mergePriors_forall₂ {R : Finding → Finding → Prop} {c : Context} : ∀ {findings : List Finding} {s : Summary},
    (∀ prior ∈ findings, ∀ s, R prior (mergePrior c prior s).1) →
    List.Forall₂ R findings (mergePriors c findings s).1 := by
  intro findings
  induction findings with
  | nil => exact fun _ => .nil
  | cons prior rest ih =>
    intro s hall
    exact .cons (hall prior (List.mem_cons_self ..) s) (ih fun p hp => hall p (List.mem_cons_of_mem _ hp))

end Kept

section New

variable (c : Context) (verdicts : List Verdict) (seen : List Text)

/-- The ids that the loop over the new findings adds. -/
def addedIds (ids : List Text) : List Text :=
  ids.filter fun id => (c.returned.lookup id).isSome && decide (id ∉ seen) && !isRefuted verdicts id

theorem mergeNew_forall₂ : ∀ (ids : List Text) (s : Summary), List.Forall₂
    (fun id new => ∃ update, c.returned.lookup id = some update ∧ new = newFinding c update (verdictFor verdicts id))
    (addedIds c verdicts seen ids) (mergeNew c verdicts seen ids s).1 := by
  intro ids
  induction ids with
  | nil => exact fun _ => .nil
  | cons id rest ih =>
    intro s
    unfold mergeNew addedIds
    split
    · rename_i hnone
      rw [List.filter_cons_of_neg (by rw [hnone]; exact nofun)]
      exact ih _
    · rename_i update hupdate
      split
      · rename_i hseen
        rw [List.filter_cons_of_neg]
        · exact ih _
        · rw [decide_eq_false (not_not_intro hseen), Bool.and_false, Bool.false_and]
          exact nofun
      · rename_i hseen
        simp only
        split
        · rename_i hrefuted
          rw [List.filter_cons_of_neg]
          · exact ih _
          · rw [isRefuted, decide_eq_true hrefuted, Bool.not_true, Bool.and_false]
            exact nofun
        · rename_i hrefuted
          rw [List.filter_cons_of_pos]
          · exact .cons ⟨update, hupdate, rfl⟩ (ih _)
          · rw [hupdate, decide_eq_true hseen, isRefuted, decide_eq_false hrefuted]
            rfl

end New

section Ids

variable {i : MergeInput} {existing document : Document} {v : Validated} {summary : Summary}

theorem mergePrior_id (hwf : v.WellFormed) (prior : Finding) (s : Summary) :
    (mergePrior (mergeContext i v) prior s).1.findingId = prior.findingId := by
  unfold mergePrior
  split
  · rfl
  · split
    · rename_i update hupdate
      obtain ⟨-, hid, -⟩ := (returned_lookup hwf).mp hupdate
      change (mergeAck _ _ _ _).1.findingId = _
      rw [mergeAck_fst]
      split
      · change (reopenFixed _ _).findingId = _
        rw [reopenFixed_accepted, seenAgain_accepted]
        exact hid
      · rw [reopenFixed_accepted, seenAgain_accepted]
        exact hid
    · unfold mergeMissing
      split <;> rfl

theorem map_of_forall₂ {α β γ : Type} {R : α → β → Prop} {f : α → γ} {g : β → γ} (hR : ∀ a b, R a b → g b = f a)
    {l : List α} {l' : List β} (h : List.Forall₂ R l l') : l'.map g = l.map f := by
  induction h with
  | nil => rfl
  | cons hab _ ih => rw [List.map_cons, List.map_cons, hR _ _ hab, ih]

theorem forall₂_append {α β : Type} {R : α → β → Prop} {l₂ : List α} : ∀ {l₁ : List α} {l : List β},
    List.Forall₂ R (l₁ ++ l₂) l → ∃ m₁ m₂, List.Forall₂ R l₁ m₁ ∧ List.Forall₂ R l₂ m₂ ∧ l = m₁ ++ m₂ := by
  intro l₁
  induction l₁ with
  | nil => exact fun h => ⟨[], _, .nil, h, rfl⟩
  | cons a l₁ ih =>
    rintro l (_ | ⟨hab, h⟩)
    obtain ⟨m₁, m₂, h₁, h₂, rfl⟩ := ih h
    exact ⟨_ :: m₁, m₂, .cons hab h₁, h₂, rfl⟩

/-- The findings of the new document: the stored ones, then those that are added. -/
theorem mergeDocument_findings (hm : mergeDocument i existing v = .ok (document, summary)) : ∃ s s',
    document.findings = (mergePriors (mergeContext i v) (storedFindings i.mode existing v) s).1 ++
      (mergeNew (mergeContext i v) i.verdicts (seenPriorIds (mergeContext i v) (storedFindings i.mode existing v))
        (newFindingIds i.mode v) s').1 := by
  unfold mergeDocument at hm
  split at hm
  · cases hm
  · split at hm
    · cases hm
    · simp only at hm
      split at hm
      · cases hm
      · cases hm
        exact ⟨_, _, rfl⟩

theorem mem_sortedTexts {texts : List Text} {id : Text} : id ∈ sortedTexts texts ↔ id ∈ texts := by
  rw [sortedTexts, List.mem_insertionSort, List.mem_dedup]

theorem mem_newFindingIds {mode : Mode} {id : Text} (h : id ∈ newFindingIds mode v) :
    id ∈ v.newFindingIds ∨ mode = .revalidate ∧ id ∈ v.importedPriors.map (·.findingId) := by
  cases mode with
  | review => exact .inl h
  | revalidate => exact (List.mem_append.mp h).imp_right fun h => ⟨rfl, mem_sortedTexts.mp h⟩

theorem newFindingIds_nodup (hwf : v.WellFormed) (mode : Mode) : (newFindingIds mode v).Nodup := by
  obtain ⟨hnew, -, hdisjoint⟩ := List.nodup_append'.mp hwf.nodup
  cases mode with
  | review => exact hnew
  | revalidate =>
    refine List.nodup_append'.mpr ⟨hnew, ?_, fun id hid himported => ?_⟩
    · exact (List.perm_insertionSort _ _).nodup_iff.mpr (List.nodup_dedup _)
    · exact hdisjoint hid (hwf.imported.subset (mem_sortedTexts.mp himported))

/-- A merge of a result with any document: the ids stay distinct unless it imports one that is there. -/
theorem merge_distinct (hwf : v.WellFormed) (hdistinct : existing.ids.Nodup)
    (hfree : i.mode = .review → ∀ id ∈ v.importedPriors.map (·.findingId), id ∉ existing.ids)
    (hm : mergeDocument i existing v = .ok (document, summary)) : document.ids.Nodup := by
  obtain ⟨s, s', hfindings⟩ := mergeDocument_findings hm
  obtain ⟨-, hrecurring, -⟩ := List.nodup_append'.mp hwf.nodup
  have hstored : ((storedFindings i.mode existing v).map (·.findingId)).Nodup := by
    cases hmode : i.mode with
    | review =>
      change ((existing.findings ++ v.importedPriors).map _).Nodup
      rw [List.map_append]
      exact List.nodup_append'.mpr ⟨hdistinct, hrecurring.sublist hwf.imported,
        fun id hid himported => hfree hmode id himported hid⟩
    | revalidate => exact hdistinct
  have hkept := map_of_forall₂ (f := fun a : Finding => a.findingId) (g := fun a : Finding => a.findingId) (fun _ _ h => h)
    (mergePriors_forall₂ (R := fun a b => b.findingId = a.findingId) (s := s)
      fun prior (_ : prior ∈ storedFindings i.mode existing v) s => mergePrior_id (i := i) hwf prior s)
  have hadded := map_of_forall₂ (f := fun id => id) (g := fun f : Finding => f.findingId)
    (fun id new ⟨update, hupdate, hnew⟩ => by
      rw [hnew]
      exact ((returned_lookup hwf).mp hupdate).2.1)
    (mergeNew_forall₂ (mergeContext i v) i.verdicts
      (seenPriorIds (mergeContext i v) (storedFindings i.mode existing v)) (newFindingIds i.mode v) s')
  rw [Document.ids, hfindings, List.map_append, hkept, hadded, List.map_id']
  refine List.nodup_append'.mpr ⟨hstored, (newFindingIds_nodup hwf i.mode).sublist List.filter_sublist, ?_⟩
  intro id hold hnew
  obtain ⟨hmem, hok⟩ := List.mem_filter.mp hnew
  simp only [Bool.and_eq_true, decide_eq_true_iff] at hok
  -- an id that is stored and returned has been seen
  obtain ⟨prior, hprior, hid⟩ := List.mem_map.mp hold
  refine hok.1.2 (List.mem_map.mpr ⟨prior, List.mem_filter.mpr ⟨hprior, ?_⟩, hid⟩)
  have hnot : id ∉ v.supersededPriors.map Prod.fst := by
    intro hsuperseded
    obtain ⟨hnew, hrecurring⟩ := hwf.superseded id hsuperseded
    exact (mem_newFindingIds hmem).elim hnew fun h => hrecurring (hwf.imported.subset h.2)
  have hlookup : v.supersededPriors.lookup id = none := by
    rw [List.lookup_eq_none_iff]
    exact fun row hrow => bne_iff_ne.mpr fun heq => hnot (List.mem_map.mpr ⟨row, hrow, heq.symm⟩)
  have hsuperseded : ((mergeContext i v).superseded.lookup prior.findingId).isNone = true := by
    rw [hid]
    exact Option.isNone_iff_eq_none.mpr hlookup
  rw [hsuperseded, Bool.true_and, hid]
  exact hok.1.1

end Ids

section Main

variable {i : MergeInput} {existing document : Document} {v : Validated} {summary : Summary}

theorem addedIds_eq (hfor : ValidatedFor existing v) : addedIds (mergeContext i v) i.verdicts
    (seenPriorIds (mergeContext i v) (storedFindings i.mode existing v)) (newFindingIds i.mode v) =
      (newFindingIds i.mode v).filter fun id => !isRefuted i.verdicts id := by
  obtain ⟨-, -, hdisjoint⟩ := List.nodup_append'.mp hfor.nodup
  refine List.filter_congr fun id hid => ?_
  have hnew := mem_newFindingIds hid
  have hreturned : ((mergeContext i v).returned.lookup id).isSome = true := by
    have hmem : id ∈ v.newFindingIds ++ v.recurringFindingIds := hnew.elim (List.mem_append_left _)
      fun h => List.mem_append_right _ (hfor.imported.subset h.2)
    obtain ⟨update, hupdate, hupdateId⟩ := List.mem_map.mp (hfor.findings.subset hmem)
    refine Option.isSome_iff_exists.mpr ⟨update, (returned_lookup hfor.toWellFormed).mpr ⟨hupdate, hupdateId, ?_⟩⟩
    unfold outOfScope
    cases hmode : i.mode with
    | review => exact List.not_mem_nil
    | revalidate =>
      intro hout
      obtain ⟨hrecurring, -⟩ := List.mem_filter.mp hout
      obtain ⟨hrecurring, hkept⟩ := List.mem_filter.mp hrecurring
      exact hnew.elim (fun h => hdisjoint h hrecurring) fun h => of_decide_eq_true hkept h.2
  have hseen : id ∉ seenPriorIds (mergeContext i v) (storedFindings i.mode existing v) := by
    intro hseen
    obtain ⟨prior, hprior, hpriorId⟩ := List.mem_map.mp hseen
    have hstored := (List.mem_filter.mp hprior).1
    have hfresh : id ∉ existing.ids := hnew.elim (hfor.fresh id) fun h => hfor.importedFresh id h.2
    cases hmode : i.mode with
    | review =>
      rw [hmode] at hstored hid
      rcases List.mem_append.mp hstored with hold | himported
      · exact hfresh (hpriorId ▸ List.mem_map_of_mem hold)
      · exact hdisjoint hid (hfor.imported.subset (hpriorId ▸ List.mem_map_of_mem himported))
    | revalidate =>
      rw [hmode] at hstored
      exact hfresh (hpriorId ▸ List.mem_map_of_mem hstored)
  rw [hreturned, decide_eq_true hseen]
  rfl

/-- What is returned of a finding of the document is looked for. -/
theorem scope_of_stored (hfor : ValidatedFor existing v) {prior : Finding} {update : Accepted}
    (hprior : prior ∈ existing.findings) (hupdate : (returned i v).lookup prior.findingId = some update) :
    InScope i prior.findingId := by
  obtain ⟨hmem, hid, hout⟩ := (returned_lookup hfor.toWellFormed).mp hupdate
  have hstored : prior.findingId ∈ existing.ids := List.mem_map_of_mem hprior
  have hrecurring : prior.findingId ∈ v.recurringFindingIds := by
    have hids := hfor.findings.symm.subset (List.mem_map_of_mem (f := fun a : Accepted => a.findingId) hmem)
    rw [hid] at hids
    exact (List.mem_append.mp hids).resolve_left fun hnew => hfor.fresh _ hnew hstored
  refine inScope_of_returned ?_ hout
  cases hmode : i.mode with
  | review => exact hrecurring
  | revalidate =>
    exact List.mem_filter.mpr ⟨hrecurring, decide_eq_true fun himported => hfor.importedFresh _ himported hstored⟩

theorem merge_keeps_findings {h : Host} {p : Project} {documents : List Document} {rounds : Nat}
    {response mustRead : Json} (hdistinct : existing.ids.Nodup)
    (hv : validateResponse h p documents rounds response existing mustRead = .ok v)
    (hm : mergeDocument i existing v = .ok (document, summary)) : MergeKeeps i existing v document := by
  have hfor := validateResponse_for hv
  refine ⟨?_, merge_distinct hfor.toWellFormed hdistinct (fun _ => hfor.importedFresh) hm⟩
  obtain ⟨s, s', hfindings⟩ := mergeDocument_findings hm
  have hadded := mergeNew_forall₂ (mergeContext i v) i.verdicts
    (seenPriorIds (mergeContext i v) (storedFindings i.mode existing v)) (newFindingIds i.mode v) s'
  rw [addedIds_eq hfor] at hadded
  have hadded' := hadded.imp fun id new ⟨update, hupdate, hnew⟩ => by
    obtain ⟨hmem, hid, -⟩ := (returned_lookup hfor.toWellFormed).mp hupdate
    have hcontent : new.toAccepted = update := by rw [hnew]; rfl
    exact (⟨hcontent ▸ hid, hcontent ▸ hmem, by rw [hnew]; rfl⟩ : Added v id new)
  have hkept : List.Forall₂ (Kept i v) (storedFindings i.mode existing v)
      (mergePriors (mergeContext i v) (storedFindings i.mode existing v) s).1 := by
    refine mergePriors_forall₂ fun prior hprior s => mergePrior_kept hfor.toWellFormed (fun update hupdate => ?_) s
    cases hmode : i.mode with
    | review => exact .inl hmode
    | revalidate =>
      rw [hmode] at hprior
      exact scope_of_stored hfor hprior hupdate
  rw [hfindings]
  generalize (mergePriors (mergeContext i v) (storedFindings i.mode existing v) s).1 = merged at hkept
  cases hmode : i.mode with
  | review =>
    rw [hmode] at hkept
    obtain ⟨kept, imported, hleft, hright, rfl⟩ := forall₂_append hkept
    exact ⟨kept, imported, _, rfl, hleft, by rwa [if_pos rfl], hmode ▸ hadded'⟩
  | revalidate =>
    rw [hmode] at hkept
    exact ⟨merged, [], _, by rw [List.append_nil], hkept, by rw [if_neg nofun]; exact .nil, hmode ▸ hadded'⟩

end Main

section Example

/-- A line of a source, quoted as evidence. -/
def totalLine : Text := "let total = compute_running_total(values, start);".toList

/-- The digests of the texts below. -/
def knownDigests : List (Text × Text) :=
  [(totalLine, "2c0e1f5f7bf339681fcd856c2facb6fe4e8a9bc5a174297eec2423c9739bc089".toList),
    ("feat_a|a.rs|bug|1".toList, "929af62cd31cd780926468e12ea26a46fbf6b9ff692b51244f30897ce3ebb6d2".toList),
    ("feat_b|b.rs|bug|1".toList, "522ffcbf92720743b8fd555b3ed23073b9ad8a5634dbc91b52cb5034ca4336b0".toList)]

def knownHost : Host where
  sha256 := fun text => (knownDigests.lookup text).getD []
  isAlnum := Char.isAlphanum
  lower := fun text => text.map Char.toLower
  str := fun _ => []
  int := fun value =>
    match value with
    | .int n => .ok n
    | _ => .error (.caught "invalid literal for int() with base 10".toList)

/-- A project of one file, of that line. -/
def oneFile (name : Text) : Project where
  source := fun path => some (if path = name then .file (.ok (totalLine ++ ['\n']))
    (.ok "1f1dda596553d71e2ed4a76d357aa47f6e89365e3430e5a5be8e1e7c73a89caa".toList) else .missing)
  lsFiles := some [name]

def oneCandidate (featureId file : Text) : Json :=
  .obj [("feature_id".toList, .str featureId), ("findings".toList, .arr [.obj
    [("file".toList, .str file), ("line".toList, .int 1), ("severity".toList, .str "low".toList),
      ("category".toList, .str "bug".toList), ("title".toList, .str "Overflow".toList),
      ("summary".toList, .str "The total may overflow".toList), ("evidence".toList, .arr [.str totalLine]),
      ("magnitude".toList, .obj [("metric".toList, .str "lines".toList), ("value".toList, .int 10)])]])]

def reviewOf (featureId : Text) : MergeInput :=
  ⟨featureId, [], "run-1".toList, "2026-01-02T00:00:00Z".toList, .review, none, "sha256:0".toList, none⟩

/-- A document with this finding, fixed. -/
def fixedDocument : Document :=
  { Document.empty with
    featureId := some "feat_a".toList
    findings := [{
      file := "a.rs".toList, line := 1, severity := .low, category := .bug, title := "Overflow".toList
      summary := "The total may overflow".toList, evidence := [.str totalLine], suggestedFix := .null
      magnitude := none, contentDigest := none, findingId := "fnd_929af62c".toList, status := .fixed
      acknowledgement := none, history := [{ action := "review".toList, time := "2026-01-01T00:00:00Z".toList }]
      firstSeenAt := none, lastSeenAt := none, triagedAt := none, ackTransferredFrom := none, ackTransferredTo := none }] }

/-- A fixed finding that a review returns is opened again. -/
theorem merge_keeps_findings_fixed : ∃ v document summary,
    validateResponse knownHost (oneFile "a.rs".toList) [fixedDocument] 1 (oneCandidate "feat_a".toList "a.rs".toList)
      fixedDocument .null = .ok v ∧
    mergeDocument (reviewOf "feat_a".toList) fixedDocument v = .ok (document, summary) ∧
    MergeKeeps (reviewOf "feat_a".toList) fixedDocument v document ∧ document.findings.map (·.status) = [.opened] := by
  obtain ⟨v, hv, htest⟩ := Except.test_eq_true.mp (show Except.test
    (fun v => Except.test (fun merged => merged.1.findings.map (·.status) = [.opened])
      (mergeDocument (reviewOf "feat_a".toList) fixedDocument v))
    (validateResponse knownHost (oneFile "a.rs".toList) [fixedDocument] 1 (oneCandidate "feat_a".toList "a.rs".toList)
      fixedDocument .null) = true by decide)
  obtain ⟨⟨document, summary⟩, hm, hstatus⟩ := Except.test_eq_true.mp htest
  exact ⟨v, document, summary, hv, hm, merge_keeps_findings (by decide) hv hm, of_decide_eq_true hstatus⟩

end Example

end Review
end CodeSage
