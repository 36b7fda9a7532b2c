import CodeSage.Lib.Except
import CodeSage.Review.Validate

/-!
# CodeSage.Review.ValidateCorrect

The ids that `validate_response` gives out: every accepted finding has one of its own, and one that is new is not in
the document that the response was validated against.
-/

namespace CodeSage
namespace Review

open Lib

section Mint

theorem mintFrom_notMem {h : Host} {base id : Text} {occupied : List Text} {rounds : Nat} : ∀ {suffix : Nat},
    mintFrom h base occupied suffix rounds = some id → id ∉ occupied := by
  induction rounds with
  | zero => exact nofun
  | succ rounds ih =>
    intro suffix hmint
    simp only [mintFrom] at hmint
    generalize (if suffix = 1 then base else base ++ '|' :: decimal suffix) = material at hmint
    split at hmint
    · exact ih hmint
    · rename_i hfree
      cases hmint
      exact hfree

theorem mintFindingId_notMem {g : Given} {finding : Candidate} {usedIds : List Text} {id : Text}
    (hmint : mintFindingId g finding usedIds = some id) : id ∉ g.occupied ∧ id ∉ usedIds := by
  have h := mintFrom_notMem hmint
  rw [List.mem_append, not_or] at h
  exact h

end Mint

section Rename

variable {p : Project} {priors renamed : List Finding}

theorem renamePrior_id {byDigest : List (Text × Text)} {prior : Finding} :
    (renamePrior p byDigest prior).findingId = prior.findingId := by
  unfold renamePrior
  split
  · split <;> rfl
  · rfl

/-- A rename moves a prior to another file, under its id. -/
theorem renamePriors_ids (h : renamePriors p priors = .ok renamed) :
    renamed.map (·.findingId) = priors.map (·.findingId) := by
  simp only [renamePriors] at h
  obtain ⟨candidates, -, h⟩ := Except.bind_eq_ok.mp h
  split at h
  · cases h
    rfl
  · split at h
    · cases h
      rfl
    · split at h
      · cases h
        rfl
      · cases h
        rw [List.map_map]
        exact List.map_congr_left fun prior _ => renamePrior_id

end Rename

section Scan

/-- The ids given out so far. -/
structure ScanOk (g : Given) (s : Scan) : Prop where
  ids : s.findings.map (·.findingId) = s.usedIds
  perm : (s.newIds ++ s.recurringIds).Perm s.usedIds
  nodup : s.usedIds.Nodup
  fresh : ∀ id ∈ s.newIds, id ∉ g.occupied
  imported : (s.importedPriors.map (·.findingId)).Sublist s.recurringIds
  importedFresh : ∀ id ∈ s.importedPriors.map (·.findingId), id ∉ g.occupied
  recurring : ∀ id ∈ s.recurringIds, id ∈ g.priors.map (·.findingId) ∨ id ∈ s.importedPriors.map (·.findingId)

variable {g : Given} {s s' : Scan}

theorem scanOk_start (g : Given) (foreignPriors : List Finding) :
    ScanOk g ⟨foreignPriors, [], [], [], [], [], [], []⟩ where
  ids := rfl
  perm := .refl _
  nodup := List.nodup_nil
  fresh := fun _ hid => (List.not_mem_nil hid).elim
  imported := .refl _
  importedFresh := fun _ hid => (List.not_mem_nil hid).elim
  recurring := fun _ hid => (List.not_mem_nil hid).elim

theorem foldDuplicate_ids {h : Host} {finding : Candidate} : ∀ {accepted folded : List Accepted},
    foldDuplicate h finding accepted = some folded → folded.map (·.findingId) = accepted.map (·.findingId) := by
  intro accepted
  induction accepted with
  | nil => exact nofun
  | cons a rest ih =>
    intro folded hfold
    simp only [foldDuplicate] at hfold
    split at hfold
    · cases hfold
      rfl
    · obtain ⟨tail, htail, rfl⟩ := Option.map_eq_some_iff.mp hfold
      rw [List.map_cons, List.map_cons, ih htail]

theorem nodup_concat {α : Type} {l : List α} {x : α} (h : l.Nodup) (hx : x ∉ l) : (l ++ [x]).Nodup :=
  List.nodup_append.mpr ⟨h, List.nodup_singleton x, fun a ha b hb heq => hx (by
    rw [← List.mem_singleton.mp hb, ← heq]
    exact ha)⟩

theorem ScanOk.recur (h : ScanOk g s) {finding : Candidate} {id : Text} (hunused : id ∉ s.usedIds)
    (hprior : id ∈ g.priors.map (·.findingId)) : ScanOk g (s.recur finding id) where
  ids := by
    change (s.findings ++ [_]).map _ = s.usedIds ++ [id]
    rw [List.map_append, h.ids]
    rfl
  perm := by
    change (s.newIds ++ (s.recurringIds ++ [id])).Perm (s.usedIds ++ [id])
    rw [← List.append_assoc]
    exact h.perm.append_right [id]
  nodup := nodup_concat h.nodup hunused
  fresh := h.fresh
  imported := h.imported.trans (List.sublist_append_left _ _)
  importedFresh := h.importedFresh
  recurring := fun id' hid => by
    rcases List.mem_append.mp hid with hold | hnew
    · exact h.recurring id' hold
    · rw [List.mem_singleton.mp hnew]
      exact .inl hprior

/-- A prior is taken over from another document, under a new id. -/
theorem ScanOk.takeOver (h : ScanOk g s) {finding : Candidate} {id : Text} {matching : Finding → Bool} {foreign : Finding}
    (hunused : id ∉ s.usedIds) (hfree : id ∉ g.occupied) :
    ScanOk g ((s.takeOver matching foreign id).recur finding id) where
  ids := by
    change (s.findings ++ [_]).map _ = s.usedIds ++ [id]
    rw [List.map_append, h.ids]
    rfl
  perm := by
    change (s.newIds ++ (s.recurringIds ++ [id])).Perm (s.usedIds ++ [id])
    rw [← List.append_assoc]
    exact h.perm.append_right [id]
  nodup := nodup_concat h.nodup hunused
  fresh := h.fresh
  imported := by
    change ((s.importedPriors ++ [_]).map _).Sublist (s.recurringIds ++ [id])
    rw [List.map_append]
    exact h.imported.append (List.Sublist.refl _)
  importedFresh := fun id' hid => by
    change id' ∈ (s.importedPriors ++ [_]).map _ at hid
    rw [List.map_append] at hid
    rcases List.mem_append.mp hid with hold | hnew
    · exact h.importedFresh id' hold
    · rw [List.mem_singleton.mp hnew]
      exact hfree
  recurring := fun id' hid => by
    change _ ∨ id' ∈ (s.importedPriors ++ [_]).map _
    rw [List.map_append]
    rcases List.mem_append.mp hid with hold | hnew
    · exact (h.recurring id' hold).imp_right fun himported => List.mem_append_left _ himported
    · exact .inr (List.mem_append_right _ hnew)

theorem ScanOk.add (h : ScanOk g s) {finding : Candidate} {id : Text} (hunused : id ∉ s.usedIds)
    (hfree : id ∉ g.occupied) : ScanOk g (s.add finding id) where
  ids := by
    change (s.findings ++ [_]).map _ = s.usedIds ++ [id]
    rw [List.map_append, h.ids]
    rfl
  perm := by
    change ((s.newIds ++ [id]) ++ s.recurringIds).Perm (s.usedIds ++ [id])
    have hswap : ((s.newIds ++ [id]) ++ s.recurringIds).Perm ((s.newIds ++ s.recurringIds) ++ [id]) := by
      rw [List.append_assoc, List.append_assoc]
      exact List.perm_append_comm.append_left s.newIds
    exact hswap.trans (h.perm.append_right [id])
  nodup := nodup_concat h.nodup hunused
  fresh := fun id' hid => by
    rcases List.mem_append.mp hid with hold | hnew
    · exact h.fresh id' hold
    · rw [List.mem_singleton.mp hnew]
      exact hfree
  imported := h.imported
  importedFresh := h.importedFresh
  recurring := h.recurring

theorem identify_ok {finding : Candidate} (h : ScanOk g s) (hstep : identify g s finding = .ok s') : ScanOk g s' := by
  simp only [identify] at hstep
  split at hstep
  · rename_i prior hprior
    cases hstep
    obtain ⟨hmem, hunused, -⟩ := matchPrior_mem g.host hprior
    exact h.recur hunused (List.mem_map_of_mem hmem)
  · split at hstep
    · split at hstep
      · rename_i id hmint
        cases hstep
        obtain ⟨hfree, hunused⟩ := mintFindingId_notMem hmint
        exact h.takeOver hunused hfree
      · cases hstep
    · split at hstep
      · cases hstep
      · split at hstep
        · rename_i id hmint
          cases hstep
          obtain ⟨hfree, hunused⟩ := mintFindingId_notMem hmint
          have hsame : ∀ diagnostics, ScanOk g { s with transferDiagnostics := diagnostics } := fun _ => { h with }
          exact (hsame _).add hunused hfree
        · cases hstep

/-- One candidate of the response. -/
theorem scanFinding_ok {raw : Json} (h : ScanOk g s) (hstep : scanFinding g s raw = .ok s') : ScanOk g s' := by
  have hreject : ∀ file title reason, ScanOk g (s.reject file title reason) := fun _ _ _ => { h with }
  simp only [scanFinding] at hstep
  split at hstep
  · split at hstep
    · cases hstep
      exact hreject _ _ _
    · cases hstep
    · split at hstep
      · rename_i folded hfold
        cases hstep
        exact { h with ids := (foldDuplicate_ids hfold).trans h.ids }
      · exact identify_ok h hstep
  · cases hstep
    exact hreject _ _ _

end Scan

section Validated

/-- The ids of a result are its own: what a merge with any document rests on. -/
structure Validated.WellFormed (v : Validated) : Prop where
  nodup : (v.newFindingIds ++ v.recurringFindingIds).Nodup
  findings : (v.newFindingIds ++ v.recurringFindingIds).Perm (v.findings.map (·.findingId))
  imported : (v.importedPriors.map (·.findingId)).Sublist v.recurringFindingIds
  superseded : ∀ id ∈ v.supersededPriors.map Prod.fst,
    id ∉ v.newFindingIds ∧ id ∉ v.recurringFindingIds

/-- What a result says of the document that the response was validated against. -/
structure ValidatedFor (existing : Document) (v : Validated) : Prop extends v.WellFormed where
  fresh : ∀ id ∈ v.newFindingIds, id ∉ existing.ids
  importedFresh : ∀ id ∈ v.importedPriors.map (·.findingId), id ∉ existing.ids
  recurring : ∀ id ∈ v.recurringFindingIds, id ∈ existing.ids ∨ id ∈ v.importedPriors.map (·.findingId)

theorem raising_eq_ok {α : Type} {x : Except Text α} {a : α} : raising x = .ok a ↔ x = .ok a := by
  cases x with
  | error message => exact ⟨nofun, nofun⟩
  | ok a => exact ⟨fun h => by cases h; rfl, fun h => by cases h; rfl⟩

theorem superseded_mem {documents : List Document} {featureId : Text} {existing : Document} {id : Text}
    (h : id ∈ (superseded documents featureId existing).map Prod.fst) : id ∈ existing.ids := by
  obtain ⟨row, hrow, rfl⟩ := List.mem_map.mp h
  obtain ⟨finding, hmem, hsome⟩ := List.mem_filterMap.mp hrow
  simp only at hsome
  split at hsome
  · cases hsome
  · cases hsome
    exact List.mem_map_of_mem hmem

variable {h : Host} {p : Project} {documents : List Document} {rounds : Nat} {response mustRead : Json}
  {existing : Document} {v : Validated}

theorem validateResponse_for (hv : validateResponse h p documents rounds response existing mustRead = .ok v) :
    ValidatedFor existing v := by
  unfold validateResponse at hv
  split at hv
  · obtain ⟨featureId, -, hv⟩ := Except.bind_eq_ok.mp hv
    split at hv
    · cases hv
    · obtain ⟨reviewedFiles, -, hv⟩ := Except.bind_eq_ok.mp hv
      obtain ⟨items, -, hv⟩ := Except.bind_eq_ok.mp hv
      obtain ⟨priors, hpriors, hv⟩ := Except.bind_eq_ok.mp hv
      obtain ⟨foreignPriors, -, hv⟩ := Except.bind_eq_ok.mp hv
      obtain ⟨scan, hscan, hv⟩ := Except.bind_eq_ok.mp hv
      cases hv
      have hok : ScanOk ⟨h, p, featureId, priors, existing.ids, rounds⟩ scan :=
        Except.foldlM_invariant (fun s raw s' _ hs hstep => scanFinding_ok hs hstep)
          (scanOk_start _ foreignPriors) hscan
      have hids := renamePriors_ids (raising_eq_ok.mp hpriors)
      have hprior : ∀ id ∈ priors.map (·.findingId),
          id ∈ existing.ids ∧ id ∉ (superseded documents featureId existing).map Prod.fst := by
        intro id hid
        rw [hids] at hid
        obtain ⟨finding, hmem, rfl⟩ := List.mem_map.mp hid
        obtain ⟨hmem, hkept⟩ := List.mem_filter.mp hmem
        exact ⟨List.mem_map_of_mem hmem, of_decide_eq_true hkept⟩
      refine ⟨⟨hok.perm.nodup_iff.mpr hok.nodup, ?_, hok.imported, fun id hid => ⟨fun hnew => ?_, fun hrecurring => ?_⟩⟩,
        hok.fresh, hok.importedFresh, fun id hid => (hok.recurring id hid).imp_left fun hid => (hprior id hid).1⟩
      · exact hok.perm.trans (.of_eq hok.ids.symm)
      · exact hok.fresh id hnew (superseded_mem hid)
      · rcases hok.recurring id hrecurring with hold | himported
        · exact (hprior id hold).2 hid
        · exact hok.importedFresh id himported (superseded_mem hid)
  · cases hv

end Validated

end Review
end CodeSage
