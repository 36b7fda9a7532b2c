import CodeSage.Review.MergeCorrect

/-!
# CodeSage.Review.Acknowledged

The candidates of a response that become one finding, and the magnitude that is stored for them. It is the least
upper bound of theirs, so an acknowledgement holds exactly while it covers each of them.
-/

namespace CodeSage
namespace Review

open Lib

section Groups

/-- The accepted finding that a candidate joins or becomes. -/
def joins (g : Given) (s : Scan) (rawFinding : Json) : Option (Text × Candidate) :=
  match rawFinding with
  | .obj fields =>
    match checkCandidate g.host g.project fields with
    | .error _ => none
    | .ok finding =>
      match s.findings.find? fun accepted => sameCandidate g.host finding accepted.toCandidate with
      | some accepted => some (accepted.findingId, finding)
      | none =>
        match identify g s finding with
        | .ok s' => s'.findings.getLast?.map fun accepted => (accepted.findingId, finding)
        | .error _ => none
  | _ => none

/-- The candidates of a response, each with the id of its finding. -/
def groupsFrom (g : Given) : Scan → List Json → List (Text × Candidate)
  | _, [] => []
  | s, rawFinding :: rest =>
    match scanFinding g s rawFinding with
    | .ok s' => (joins g s rawFinding).toList ++ groupsFrom g s' rest
    | .error _ => []

def responseGroups (h : Host) (p : Project) (documents : List Document) (rounds : Nat) (response : Json)
    (existing : Document) : Except Failure (List (Text × Candidate)) :=
  match response with
  | .obj fields => do
    let featureId ← responseFeature fields
    let items ← rawFindings fields
    let gone := superseded documents featureId existing
    let kept := existing.findings.filter fun finding => finding.findingId ∉ gone.map Prod.fst
    let priors ← raising (renamePriors p kept)
    let foreignPriors ← raising (foreignAckPriors p documents featureId)
    return groupsFrom ⟨h, p, featureId, priors, existing.ids, rounds⟩ ⟨foreignPriors, [], [], [], [], [], [], []⟩ items
  | _ => .error (.raised "review response must be an object".toList)

/-- The candidates of one finding. -/
def groupOf (groups : List (Text × Candidate)) (findingId : Text) : List Candidate :=
  (groups.filter fun joined => joined.1 = findingId).map Prod.snd

end Groups

section Join

/-- The magnitude of a group. -/
def joinAll : List (Option Magnitude) → Option Magnitude
  | [] => none
  | first :: rest => rest.foldl joinMagnitude first

variable {a b c : Option Magnitude}

/-- The magnitudes that an acknowledgement covers. -/
def Covers (ack : Acknowledgement) (magnitude : Option Magnitude) : Prop :=
  ∃ m, magnitude = some m ∧ m.metric = ack.metric ∧ m.value ≤ ack.value

theorem not_covers_none {ack : Acknowledgement} : ¬Covers ack none := fun ⟨_, h, _⟩ => nomatch h

theorem covers_some {ack : Acknowledgement} {m : Magnitude} :
    Covers ack (some m) ↔ m.metric = ack.metric ∧ m.value ≤ ack.value := by
  simp only [Covers, Option.some.injEq, exists_eq_left']

/-- Covering a join is covering both. -/
theorem covers_join {ack : Acknowledgement} : Covers ack (joinMagnitude a b) ↔ Covers ack a ∧ Covers ack b := by
  cases a with
  | none => exact ⟨fun h => (not_covers_none h).elim, fun h => (not_covers_none h.1).elim⟩
  | some x =>
    cases b with
    | none => exact ⟨fun h => (not_covers_none h).elim, fun h => (not_covers_none h.2).elim⟩
    | some y =>
      rw [covers_some, covers_some, joinMagnitude]
      by_cases hmetric : x.metric = y.metric
      · rw [if_pos hmetric]
        split
        · rename_i hlt
          rw [covers_some]
          exact ⟨fun h => ⟨⟨hmetric.trans h.1, hlt.le.trans h.2⟩, h⟩, And.right⟩
        · rename_i hle
          rw [covers_some]
          exact ⟨fun h => ⟨h, hmetric.symm.trans h.1, (not_lt.mp hle).trans h.2⟩, And.left⟩
      · rw [if_neg hmetric]
        exact ⟨fun h => (not_covers_none h).elim, fun h => (hmetric (h.1.1.trans h.2.1.symm)).elim⟩

/-- A magnitude is known by the acknowledgements that cover it. -/
theorem eq_of_covers (h : ∀ ack, Covers ack a ↔ Covers ack b) : a = b := by
  have hle : ∀ {a b : Option Magnitude}, (∀ ack, Covers ack a ↔ Covers ack b) → ∀ x, a = some x →
      ∃ y, b = some y ∧ y.metric = x.metric ∧ y.value ≤ x.value := by
    intro a b h x hx
    have hself : Covers ⟨x, []⟩ a := ⟨x, hx, rfl, le_refl _⟩
    exact (h _).mp hself
  cases a with
  | none =>
    cases b with
    | none => rfl
    | some y =>
      obtain ⟨_, hnone, -⟩ := hle (fun ack => (h ack).symm) y rfl
      cases hnone
  | some x =>
    obtain ⟨y, rfl, hmetric, hyx⟩ := hle h x rfl
    obtain ⟨_, hx, -, hxy⟩ := hle (fun ack => (h ack).symm) y rfl
    cases hx
    have hvalue := le_antisymm hyx hxy
    cases x
    cases y
    cases hmetric
    cases hvalue
    rfl

theorem covers_foldl {ack : Acknowledgement} (rest : List (Option Magnitude)) :
    Covers ack (rest.foldl joinMagnitude a) ↔ Covers ack a ∧ ∀ m ∈ rest, Covers ack m := by
  induction rest generalizing a with
  | nil => simp
  | cons m rest ih => rw [List.foldl_cons, ih, covers_join, List.forall_mem_cons, and_assoc]

/-- An acknowledgement covers the magnitude of a group when it covers each of them. -/
theorem covers_joinAll {ack : Acknowledgement} {ms : List (Option Magnitude)} (hne : ms ≠ []) :
    Covers ack (joinAll ms) ↔ ∀ m ∈ ms, Covers ack m := by
  cases ms with
  | nil => exact (hne rfl).elim
  | cons m rest => rw [joinAll, covers_foldl, List.forall_mem_cons]

theorem joinAll_perm {ms ms' : List (Option Magnitude)} (hperm : ms.Perm ms') : joinAll ms = joinAll ms' := by
  by_cases hne : ms = []
  · subst hne
    rw [List.nil_perm.mp hperm]
  · have hne' : ms' ≠ [] := fun h => hne (List.perm_nil.mp (h ▸ hperm))
    refine eq_of_covers fun ack => ?_
    rw [covers_joinAll hne, covers_joinAll hne']
    exact ⟨fun h m hm => h m (hperm.mem_iff.mpr hm), fun h m hm => h m (hperm.mem_iff.mp hm)⟩

theorem joinAll_concat {ms : List (Option Magnitude)} (hne : ms ≠ []) (m : Option Magnitude) :
    joinAll (ms ++ [m]) = joinMagnitude (joinAll ms) m := by
  cases ms with
  | nil => exact (hne rfl).elim
  | cons first rest => rw [List.cons_append, joinAll, List.foldl_append, joinAll, List.foldl_cons, List.foldl_nil]

end Join

section Scan

variable {g : Given} {s s' : Scan} {groups : List (Text × Candidate)}

/-- Every accepted finding has the magnitude of its group. -/
structure Grouped (s : Scan) (groups : List (Text × Candidate)) : Prop where
  known : ∀ joined ∈ groups, joined.1 ∈ s.findings.map (·.findingId)
  nonempty : ∀ accepted ∈ s.findings, groupOf groups accepted.findingId ≠ []
  magnitude : ∀ accepted ∈ s.findings,
    accepted.magnitude = joinAll ((groupOf groups accepted.findingId).map (·.magnitude))

theorem groupOf_concat (id id' : Text) (c : Candidate) :
    groupOf (groups ++ [(id, c)]) id' = groupOf groups id' ++ if id = id' then [c] else [] := by
  rw [groupOf, List.filter_append, List.map_append, groupOf, List.filter_cons, List.filter_nil]
  split
  · rename_i h
    rw [if_pos (of_decide_eq_true h)]
    rfl
  · rename_i h
    rw [if_neg fun heq => h (decide_eq_true heq)]
    rfl

/-- A duplicate is folded into the first finding that is the same. -/
theorem foldDuplicate_some {h : Host} {finding : Candidate} : ∀ {accepted folded : List Accepted},
    foldDuplicate h finding accepted = some folded → ∃ before a after, accepted = before ++ a :: after ∧
      accepted.find? (fun a => sameCandidate h finding a.toCandidate) = some a ∧
      folded = before ++ { a with magnitude := joinMagnitude a.magnitude finding.magnitude } :: after := by
  intro accepted
  let same := fun a : Accepted => sameCandidate h finding a.toCandidate
  induction accepted with
  | nil => exact nofun
  | cons a rest ih =>
    intro folded hfold
    rw [foldDuplicate] at hfold
    split at hfold
    · rename_i hsame
      cases hfold
      exact ⟨[], a, rest, rfl, List.find?_cons_of_pos hsame, rfl⟩
    · rename_i hsame
      obtain ⟨tail, htail, rfl⟩ := Option.map_eq_some_iff.mp hfold
      obtain ⟨before, b, after, rfl, hfind, rfl⟩ := ih htail
      exact ⟨a :: before, b, after, rfl, (List.find?_cons_of_neg (p := same) hsame).trans hfind, rfl⟩

theorem foldDuplicate_none {h : Host} {finding : Candidate} : ∀ {accepted : List Accepted},
    foldDuplicate h finding accepted = none →
      accepted.find? (fun a => sameCandidate h finding a.toCandidate) = none := by
  intro accepted
  let same := fun a : Accepted => sameCandidate h finding a.toCandidate
  induction accepted with
  | nil => exact fun _ => rfl
  | cons a rest ih =>
    intro hfold
    rw [foldDuplicate] at hfold
    split at hfold
    · cases hfold
    · rename_i hsame
      exact (List.find?_cons_of_neg (p := same) hsame).trans (ih (Option.map_eq_none_iff.mp hfold))

theorem Grouped.fold (h : Grouped s groups) (hids : (s.findings.map (·.findingId)).Nodup) {before after : List Accepted}
    {a : Accepted} (hfindings : s.findings = before ++ a :: after) (finding : Candidate) (rejected : List Rejected) :
    Grouped { s with
      findings := before ++ { a with magnitude := joinMagnitude a.magnitude finding.magnitude } :: after
      rejected := rejected } (groups ++ [(a.findingId, finding)]) := by
  have ha : a ∈ s.findings := hfindings ▸ List.mem_append_right _ List.mem_cons_self
  have hother : ∀ b ∈ before ++ after, b ∈ s.findings ∧ a.findingId ≠ b.findingId := by
    intro b hb
    rw [hfindings, List.map_append, List.map_cons, List.nodup_append] at hids
    obtain ⟨-, hafter, hapart⟩ := hids
    rcases List.mem_append.mp hb with hb | hb
    · refine ⟨hfindings ▸ List.mem_append_left _ hb, ?_⟩
      exact (hapart _ (List.mem_map_of_mem hb) _ List.mem_cons_self).symm
    · refine ⟨hfindings ▸ List.mem_append_right _ (List.mem_cons_of_mem _ hb), fun heq => ?_⟩
      exact (List.nodup_cons.mp hafter).1 (heq ▸ List.mem_map_of_mem hb)
  have hcases : ∀ b ∈ before ++ { a with magnitude := joinMagnitude a.magnitude finding.magnitude } :: after,
      b = { a with magnitude := joinMagnitude a.magnitude finding.magnitude } ∨ b ∈ before ++ after := by
    intro b hb
    rcases List.mem_append.mp hb with hb | hb
    · exact .inr (List.mem_append_left _ hb)
    · exact (List.mem_cons.mp hb).imp_right (List.mem_append_right _)
  refine ⟨fun joined hjoined => ?_, fun b hb => ?_, fun b hb => ?_⟩
  · change joined.1 ∈ (before ++ { a with magnitude := _ } :: after).map _
    have hsame : (before ++ { a with magnitude := joinMagnitude a.magnitude finding.magnitude } :: after).map
        (·.findingId) = s.findings.map (·.findingId) := by
      rw [hfindings, List.map_append, List.map_append, List.map_cons, List.map_cons]
    rw [hsame]
    rcases List.mem_append.mp hjoined with hold | hnew
    · exact h.known joined hold
    · rw [List.mem_singleton.mp hnew]
      exact List.mem_map_of_mem ha
  · rw [groupOf_concat]
    refine List.append_ne_nil_of_left_ne_nil ?_ _
    rcases hcases b hb with rfl | hb
    · exact h.nonempty a ha
    · exact h.nonempty b (hother b hb).1
  · rw [groupOf_concat]
    rcases hcases b hb with rfl | hb
    · rw [if_pos rfl, List.map_append, List.map_singleton,
        joinAll_concat (mt List.map_eq_nil_iff.mp (h.nonempty a ha)), ← h.magnitude a ha]
    · rw [if_neg (hother b hb).2, List.append_nil]
      exact h.magnitude b (hother b hb).1

/-- A candidate that is not a duplicate opens a group. -/
theorem Grouped.concat (h : Grouped s groups) {id : Text} (hnew : id ∉ s.findings.map (·.findingId)) (finding : Candidate)
    (hfindings : s'.findings = s.findings ++ [⟨finding, id⟩]) : Grouped s' (groups ++ [(id, finding)]) := by
  have hempty : groupOf groups id = [] := by
    rw [groupOf, List.map_eq_nil_iff, List.filter_eq_nil_iff]
    intro joined hjoined heq
    exact hnew (of_decide_eq_true heq ▸ h.known joined hjoined)
  have hcases : ∀ b ∈ s'.findings, b = ⟨finding, id⟩ ∨ (b ∈ s.findings ∧ id ≠ b.findingId) := by
    intro b hb
    rw [hfindings] at hb
    rcases List.mem_append.mp hb with hb | hb
    · exact .inr ⟨hb, fun heq => hnew (heq ▸ List.mem_map_of_mem hb)⟩
    · exact .inl (List.mem_singleton.mp hb)
  refine ⟨fun joined hjoined => ?_, fun b hb => ?_, fun b hb => ?_⟩
  · rw [hfindings, List.map_append]
    rcases List.mem_append.mp hjoined with hold | hjoined
    · exact List.mem_append_left _ (h.known joined hold)
    · rw [List.mem_singleton.mp hjoined]
      exact List.mem_append_right _ (List.mem_singleton_self _)
  · rw [groupOf_concat]
    rcases hcases b hb with rfl | ⟨hb, -⟩
    · rw [if_pos rfl]
      exact List.append_ne_nil_of_right_ne_nil _ (List.cons_ne_nil _ _)
    · exact List.append_ne_nil_of_left_ne_nil (h.nonempty b hb) _
  · rw [groupOf_concat]
    rcases hcases b hb with rfl | ⟨hb, hne⟩
    · rw [if_pos rfl, hempty]
      rfl
    · rw [if_neg hne, List.append_nil]
      exact h.magnitude b hb

/-- What a candidate that is not a duplicate adds. -/
theorem identify_findings {finding : Candidate} (hstep : identify g s finding = .ok s') :
    ∃ id, s'.findings = s.findings ++ [⟨finding, id⟩] := by
  simp only [identify] at hstep
  split at hstep
  · cases hstep
    exact ⟨_, rfl⟩
  · split at hstep
    · split at hstep
      · cases hstep
        exact ⟨_, rfl⟩
      · cases hstep
    · split at hstep
      · cases hstep
      · split at hstep
        · cases hstep
          exact ⟨_, rfl⟩
        · cases hstep

section Joins

variable {fields : List (Text × Json)} {finding : Candidate}

theorem joins_of_not_obj {raw : Json} (hnot : ∀ fields, raw ≠ .obj fields) : joins g s raw = none := by
  cases raw with
  | obj fields => exact absurd rfl (hnot fields)
  | _ => rfl

theorem joins_rejected {e : Raised} (hcheck : checkCandidate g.host g.project fields = .error e) :
    joins g s (.obj fields) = none := by
  rw [joins, hcheck]

theorem joins_duplicate {a : Accepted} (hcheck : checkCandidate g.host g.project fields = .ok finding)
    (hfind : s.findings.find? (fun accepted => sameCandidate g.host finding accepted.toCandidate) = some a) :
    joins g s (.obj fields) = some (a.findingId, finding) := by
  rw [joins, hcheck]
  simp only [hfind]

theorem joins_identified {id : Text} (hcheck : checkCandidate g.host g.project fields = .ok finding)
    (hfind : s.findings.find? (fun accepted => sameCandidate g.host finding accepted.toCandidate) = none)
    (hstep : identify g s finding = .ok s') (hfindings : s'.findings = s.findings ++ [⟨finding, id⟩]) :
    joins g s (.obj fields) = some (id, finding) := by
  rw [joins, hcheck]
  simp only [hfind, hstep, hfindings, List.getLast?_concat, Option.map_some]

end Joins

/-- One candidate of the response. -/
theorem scanFinding_grouped {raw : Json} (hok : ScanOk g s) (h : Grouped s groups)
    (hstep : scanFinding g s raw = .ok s') : Grouped s' (groups ++ (joins g s raw).toList) := by
  have hids : (s.findings.map (·.findingId)).Nodup := hok.ids ▸ hok.nodup
  have hreject : ∀ file title reason, Grouped (s.reject file title reason) (groups ++ []) := fun _ _ _ => by
    rw [List.append_nil]
    exact { h with }
  have hok' := scanFinding_ok hok hstep
  simp only [scanFinding] at hstep
  split at hstep
  · rename_i fields
    split at hstep
    · rename_i hcheck
      rw [joins_rejected hcheck]
      cases hstep
      exact hreject _ _ _
    · cases hstep
    · rename_i finding hcheck
      split at hstep
      · rename_i folded hfold
        cases hstep
        obtain ⟨before, a, after, hfindings, hfind, rfl⟩ := foldDuplicate_some hfold
        rw [joins_duplicate hcheck hfind]
        exact h.fold hids hfindings finding _
      · rename_i hfold
        obtain ⟨id, hfindings⟩ := identify_findings hstep
        rw [joins_identified hcheck (foldDuplicate_none hfold) hstep hfindings]
        have hnew : id ∉ s.findings.map (·.findingId) := by
          have hnodup : (s'.findings.map (·.findingId)).Nodup := hok'.ids ▸ hok'.nodup
          rw [hfindings, List.map_append, List.nodup_append] at hnodup
          exact fun hmem => hnodup.2.2 id hmem id (List.mem_singleton_self _) rfl
        exact h.concat hnew finding hfindings
  · rename_i hnot
    cases hstep
    rw [joins_of_not_obj hnot]
    exact hreject _ _ _

theorem scan_grouped {items : List Json} : ∀ {s : Scan} {groups : List (Text × Candidate)}, ScanOk g s → Grouped s groups →
    items.foldlM (scanFinding g) s = .ok s' → Grouped s' (groups ++ groupsFrom g s items) := by
  induction items with
  | nil =>
    intro s groups _ h hscan
    cases hscan
    rwa [groupsFrom, List.append_nil]
  | cons raw rest ih =>
    intro s groups hok h hscan
    rw [List.foldlM_cons] at hscan
    obtain ⟨s₁, hstep, hrest⟩ := Except.bind_eq_ok.mp hscan
    rw [groupsFrom, hstep, ← List.append_assoc]
    exact ih (scanFinding_ok hok hstep) (scanFinding_grouped hok h hstep) hrest

end Scan

section Run

variable {h : Host}

/-- A response that was validated, and the review that merged the result. -/
structure ReviewRun (h : Host) where
  project : Project
  documents : List Document
  rounds : Nat
  response : Json
  existing : Document
  mustRead : Json
  validated : Validated
  isValidated : validateResponse h project documents rounds response existing mustRead = .ok validated
  input : MergeInput
  isReview : input.mode = .review
  current : Document
  document : Document
  summary : Summary
  isMerged : mergeDocument input current validated = .ok (document, summary)

/-- The candidates of the response that became the finding, in order. -/
def ReviewRun.candidates (r : ReviewRun h) (findingId : Text) : List Candidate :=
  match responseGroups h r.project r.documents r.rounds r.response r.existing with
  | .ok groups => groupOf groups findingId
  | .error _ => []

def ReviewRun.matched (r : ReviewRun h) : List Text := r.validated.findings.map (·.findingId)

/-- A stored finding that was matched, before and after. -/
structure AckHolds (r : ReviewRun h) (old new : Finding) : Prop where
  magnitude : old.findingId ∈ r.matched → new.magnitude = joinAll ((r.candidates old.findingId).map (·.magnitude))
  status : old.findingId ∈ r.matched → ∀ ack, old.acknowledgement = some ack →
    old.status = .falsePositive ∨ old.status = .wontFix →
      (new.status = old.status ↔ ∀ c ∈ r.candidates old.findingId, Covers ack c.magnitude)

/-- The acknowledgements of a document hold while nothing has grown, in whatever order it was reported. -/
structure AckSound (r : ReviewRun h) : Prop where
  stored : ∃ kept added, r.document.findings = kept ++ added ∧
    List.Forall₂ (AckHolds r) (storedFindings .review r.current r.validated) kept
  orderFree : ∀ r' : ReviewRun h, ∀ f ∈ r.document.findings, ∀ f' ∈ r'.document.findings, f.findingId ∈ r.matched →
    f'.findingId ∈ r'.matched → (r.candidates f.findingId).Perm (r'.candidates f'.findingId) →
      f.magnitude = f'.magnitude

theorem ReviewRun.grouped (r : ReviewRun h) : ∀ accepted ∈ r.validated.findings,
    r.candidates accepted.findingId ≠ [] ∧
      accepted.magnitude = joinAll ((r.candidates accepted.findingId).map (·.magnitude)) := by
  have hv := r.isValidated
  unfold validateResponse at hv
  split at hv
  · rename_i fields hresponse
    obtain ⟨featureId, hfeature, hv⟩ := Except.bind_eq_ok.mp hv
    split at hv
    · cases hv
    · obtain ⟨reviewedFiles, -, hv⟩ := Except.bind_eq_ok.mp hv
      obtain ⟨items, hitems, hv⟩ := Except.bind_eq_ok.mp hv
      obtain ⟨priors, hpriors, hv⟩ := Except.bind_eq_ok.mp hv
      obtain ⟨foreignPriors, hforeign, hv⟩ := Except.bind_eq_ok.mp hv
      obtain ⟨scan, hscan, hv⟩ := Except.bind_eq_ok.mp hv
      have hempty : Grouped (⟨foreignPriors, [], [], [], [], [], [], []⟩ : Scan) [] :=
        ⟨fun _ hj => (List.not_mem_nil hj).elim, fun _ ha => (List.not_mem_nil ha).elim,
          fun _ ha => (List.not_mem_nil ha).elim⟩
      have hgrouped := scan_grouped (scanOk_start _ foreignPriors) hempty hscan
      have hgroups : responseGroups h r.project r.documents r.rounds r.response r.existing =
          .ok (groupsFrom ⟨h, r.project, featureId, priors, r.existing.ids, r.rounds⟩
            ⟨foreignPriors, [], [], [], [], [], [], []⟩ items) := by
        rw [hresponse]
        refine Except.bind_eq_ok.mpr ⟨featureId, hfeature, Except.bind_eq_ok.mpr ⟨items, hitems, ?_⟩⟩
        exact Except.bind_eq_ok.mpr ⟨priors, hpriors, Except.bind_eq_ok.mpr ⟨foreignPriors, hforeign, rfl⟩⟩
      have hfindings : r.validated.findings = scan.findings := by rw [← Except.ok.inj hv]
      rw [hfindings]
      intro accepted hmem
      rw [ReviewRun.candidates, hgroups]
      exact ⟨hgrouped.nonempty accepted hmem, hgrouped.magnitude accepted hmem⟩
  · cases hv

variable (r : ReviewRun h)

theorem ReviewRun.wellFormed : r.validated.WellFormed := (validateResponse_for r.isValidated).toWellFormed

/-- A review looks for every finding, so everything accepted is returned. -/
theorem ReviewRun.lookup {id : Text} (hid : id ∈ r.matched) : ∃ update ∈ r.validated.findings, update.findingId = id ∧
    (mergeContext r.input r.validated).returned.lookup id = some update ∧
      (mergeContext r.input r.validated).superseded.lookup id = none := by
  obtain ⟨update, hmem, rfl⟩ := List.mem_map.mp hid
  have hscope : update.findingId ∉ outOfScope r.input r.validated := by
    rw [outOfScope, r.isReview]
    exact List.not_mem_nil
  refine ⟨update, hmem, rfl, (returned_lookup r.wellFormed).mpr ⟨hmem, rfl, hscope⟩, ?_⟩
  rw [List.lookup_eq_none_iff]
  intro row hrow
  refine bne_iff_ne.mpr fun heq => ?_
  have hsuper := r.wellFormed.superseded row.1 (List.mem_map_of_mem hrow)
  have hids := r.wellFormed.findings.mem_iff.mpr hid
  rw [heq] at hids
  exact (List.mem_append.mp hids).elim hsuper.1 hsuper.2

theorem mergeReturned_accepted {c : Context} {update : Accepted} {prior : Finding} (s : Summary) :
    (mergeReturned c update prior s).1.toAccepted = update := by
  change (mergeAck _ _ _ _).1.toAccepted = update
  rw [mergeAck_fst]
  split
  · exact reopenFixed_accepted.trans seenAgain_accepted
  · exact reopenFixed_accepted.trans seenAgain_accepted

theorem staleReason_eq_none {magnitude : Option Magnitude} {ack : Acknowledgement} :
    staleReason magnitude ack = none ↔ Covers ack magnitude := by
  cases magnitude with
  | none =>
    constructor
    · rintro ⟨⟩
    · exact fun h => (not_covers_none h).elim
  | some m =>
    rw [covers_some, staleReason]
    by_cases hmetric : m.metric = ack.metric
    · rw [if_neg (not_not_intro hmetric)]
      by_cases hvalue : ack.value < m.value
      · rw [if_pos hvalue]
        constructor
        · rintro ⟨⟩
        · exact fun h => (not_lt.mpr h.2 hvalue).elim
      · rw [if_neg hvalue]
        exact ⟨fun _ => ⟨hmetric, not_lt.mp hvalue⟩, fun _ => rfl⟩
    · rw [if_pos hmetric]
      constructor
      · rintro ⟨⟩
      · exact fun h => (hmetric h.1).elim

/-- A silenced finding keeps its status exactly while its acknowledgement covers what was returned. -/
theorem mergeReturned_status {c : Context} {update : Accepted} {prior : Finding} {ack : Acknowledgement} (s : Summary)
    (hack : prior.acknowledgement = some ack) (hstatus : prior.status = .falsePositive ∨ prior.status = .wontFix) :
    (mergeReturned c update prior s).1.status = prior.status ↔ Covers ack update.magnitude := by
  change (mergeAck _ _ _ _).1.status = _ ↔ _
  rw [mergeAck_fst]
  have hseen : (seenAgain c (takeUpdate c update prior)).status = prior.status := seenAgain_status
  have hnot : prior.status ≠ .fixed := by
    rintro h
    rw [h] at hstatus
    exact hstatus.elim nofun nofun
  have hsame : (reopenFixed c (seenAgain c (takeUpdate c update prior))).status = prior.status :=
    ((reopenFixed_status c _).1 (hseen ▸ hnot)).trans hseen
  have hcheck : ackCheck (reopenFixed c (seenAgain c (takeUpdate c update prior))) =
      some (staleReason update.magnitude ack) := by
    have hacknowledgement : (reopenFixed c (seenAgain c (takeUpdate c update prior))).acknowledgement = some ack :=
      (reopenFixed_acknowledgement c _).trans (seenAgain_acknowledgement.trans hack)
    have hmagnitude : (reopenFixed c (seenAgain c (takeUpdate c update prior))).magnitude = update.magnitude := by
      rw [reopenFixed_accepted, seenAgain_accepted]
      rfl
    rw [ackCheck, hacknowledgement, hsame, hmagnitude]
    rcases hstatus with h | h
    · rw [h]
      rfl
    · rw [h]
      rfl
  rw [hcheck, ← staleReason_eq_none]
  cases staleReason update.magnitude ack with
  | none => exact ⟨fun _ => rfl, fun _ => hsame⟩
  | some reason =>
    refine ⟨fun hopened => ?_, nofun⟩
    have hprior : Status.opened = prior.status := hopened
    rw [← hprior] at hstatus
    exact hstatus.elim nofun nofun

theorem ReviewRun.merged (prior : Finding) (s : Summary) :
    AckHolds r prior (mergePrior (mergeContext r.input r.validated) prior s).1 := by
  have hone : prior.findingId ∈ r.matched → ∃ update ∈ r.validated.findings, update.findingId = prior.findingId ∧
      mergePrior (mergeContext r.input r.validated) prior s =
        mergeReturned (mergeContext r.input r.validated) update prior s := by
    intro hid
    obtain ⟨update, hmem, hupdate, hreturned, hsuper⟩ := r.lookup hid
    exact ⟨update, hmem, hupdate, by rw [mergePrior, hsuper, hreturned]⟩
  refine ⟨fun hid => ?_, fun hid ack hack hstatus => ?_⟩
  · obtain ⟨update, hmem, hupdate, heq⟩ := hone hid
    rw [heq, mergeReturned_accepted, ← hupdate]
    exact (r.grouped update hmem).2
  · obtain ⟨update, hmem, hupdate, heq⟩ := hone hid
    obtain ⟨hne, hmagnitude⟩ := r.grouped update hmem
    rw [heq, mergeReturned_status s hack hstatus, hmagnitude, covers_joinAll (mt List.map_eq_nil_iff.mp hne), hupdate,
      List.forall_mem_map]

/-- What a finding of the document holds is what was accepted under its id. -/
theorem ReviewRun.stored_accepted {f : Finding} (hf : f ∈ r.document.findings) (hid : f.findingId ∈ r.matched) :
    f.toAccepted ∈ r.validated.findings := by
  obtain ⟨s, s', hfindings⟩ := mergeDocument_findings r.isMerged
  rw [hfindings] at hf
  rcases List.mem_append.mp hf with hstored | hadded
  · have hmerged : List.Forall₂
        (fun (prior new : Finding) => prior.findingId ∈ r.matched → new.toAccepted ∈ r.validated.findings)
        (storedFindings r.input.mode r.current r.validated)
        (mergePriors (mergeContext r.input r.validated) (storedFindings r.input.mode r.current r.validated) s).1 :=
      mergePriors_forall₂ fun prior _ s hprior => by
        obtain ⟨update, hmem, -, hreturned, hsuper⟩ := r.lookup hprior
        rw [mergePrior, hsuper, hreturned]
        simp only [mergeReturned_accepted]
        exact hmem
    have hids : List.Forall₂ (fun (prior new : Finding) => new.findingId = prior.findingId)
        (storedFindings r.input.mode r.current r.validated)
        (mergePriors (mergeContext r.input r.validated) (storedFindings r.input.mode r.current r.validated) s).1 :=
      mergePriors_forall₂ fun prior _ s => mergePrior_id r.wellFormed prior s
    obtain ⟨n, hn, rfl⟩ := List.mem_iff_getElem.mp hstored
    have hn' := hids.length_eq.symm ▸ hn
    have heq := List.Forall₂.get hids hn' hn
    exact List.Forall₂.get hmerged hn' hn (heq ▸ hid)
  · obtain ⟨n, hn, rfl⟩ := List.mem_iff_getElem.mp hadded
    have hnew := mergeNew_forall₂ (mergeContext r.input r.validated) r.input.verdicts
      (seenPriorIds (mergeContext r.input r.validated) (storedFindings r.input.mode r.current r.validated))
      (newFindingIds r.input.mode r.validated) s'
    obtain ⟨update, hupdate, heq⟩ := List.Forall₂.get hnew (hnew.length_eq.symm ▸ hn) hn
    have haccepted := congrArg Finding.toAccepted heq
    have hmem := ((returned_lookup r.wellFormed).mp hupdate).1
    exact haccepted ▸ hmem

/-- A review keeps an acknowledged status exactly while the acknowledgement covers every candidate of the group. -/
theorem acknowledged_while_covered (r : ReviewRun h) : AckSound r := by
  refine ⟨?_, fun r' f hf f' hf' hid hid' hperm => ?_⟩
  · obtain ⟨s, s', hfindings⟩ := mergeDocument_findings r.isMerged
    refine ⟨_, _, hfindings, ?_⟩
    rw [r.isReview]
    exact mergePriors_forall₂ fun prior _ s => r.merged prior s
  · have hmagnitude := (r.grouped _ (r.stored_accepted hf hid)).2
    have hmagnitude' := (r'.grouped _ (r'.stored_accepted hf' hid')).2
    rw [hmagnitude, hmagnitude']
    exact joinAll_perm (hperm.map _)

end Run

section Example

/-- A response of two candidates for one place. -/
def twoCandidates (first second : Int) : Json :=
  let candidate := fun value : Int => Json.obj
    [("file".toList, .str "a.rs".toList), ("line".toList, .int 1), ("severity".toList, .str "low".toList),
      ("category".toList, .str "bug".toList), ("title".toList, .str "Overflow".toList),
      ("summary".toList, .str "The total may overflow".toList), ("evidence".toList, .arr [.str totalLine]),
      ("magnitude".toList, .obj [("metric".toList, .str "lines".toList), ("value".toList, .int value)])]
  .obj [("feature_id".toList, .str "feat_a".toList), ("findings".toList, .arr [candidate first, candidate second])]

/-- The finding is acknowledged up to ten lines. -/
def acknowledgedDocument : Document :=
  { fixedDocument with
    findings := fixedDocument.findings.map fun finding =>
      { finding with
        status := .wontFix
        acknowledgement := some ⟨⟨"lines".toList, 10, hasText_lines, ten_nonneg⟩, "2026-01-01T00:00:00Z".toList⟩ } }

/-- A second candidate that has grown reopens the finding. -/
theorem acknowledged_while_covered_for_a_duplicate : ∃ r : ReviewRun knownHost, r.current = acknowledgedDocument ∧
    r.response = twoCandidates 9 12 ∧ AckSound r ∧ r.document.findings.map (·.status) = [.opened] := by
  obtain ⟨v, hv, htest⟩ := Except.test_eq_true.mp (show Except.test
    (fun v => Except.test (fun merged => merged.1.findings.map (·.status) = [.opened])
      (mergeDocument (reviewOf "feat_a".toList) acknowledgedDocument v))
    (validateResponse knownHost (oneFile "a.rs".toList) [acknowledgedDocument] 1 (twoCandidates 9 12)
      acknowledgedDocument .null) = true by decide)
  obtain ⟨⟨document, summary⟩, hm, hstatus⟩ := Except.test_eq_true.mp htest
  let r : ReviewRun knownHost :=
    ⟨_, _, _, _, _, _, v, hv, reviewOf "feat_a".toList, rfl, acknowledgedDocument, document, summary, hm⟩
  exact ⟨r, rfl, rfl, acknowledged_while_covered r, of_decide_eq_true hstatus⟩

end Example

end Review
end CodeSage
