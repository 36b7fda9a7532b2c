import CodeSage.Lib.Steps
import CodeSage.Review.MergeCorrect

/-!
# CodeSage.Review.Runs

The commands `validate`, `merge` and `triage` over the directory of findings. A result that `validate` has printed
can be merged at any later time, and more than once. The files of the project are those that a command finds: they
change freely between the commands.
-/

namespace CodeSage
namespace Review

open Lib

structure Store where
  /-- `.codesage/findings`, by feature -/
  documents : Table Text Document
  /-- The results of `validate`, in order. -/
  results : List Validated

def Store.empty : Store := ⟨∅, []⟩

/-- `sorted(directory.glob("*.json"))` -/
def Store.listing (s : Store) : List (Text × Document) :=
  s.documents.rows.insertionSort fun a b => textLe (a.1 ++ ".json".toList) (b.1 ++ ".json".toList)

/-- `load_json(findings_path, {"findings": []})` -/
def Store.stored (s : Store) (featureId : Text) : Document := (s.documents.lookup featureId).getD .empty

section Triage

/-- `fnd_[0-9a-f]{8}` -/
def isFindingId (id : Text) : Bool :=
  id.take 4 = "fnd_".toList && (id.drop 4).length = 8 && (id.drop 4).all fun c =>
    ('0' ≤ c && c ≤ '9') || ('a' ≤ c && c ≤ 'f')

/-- What a measure given by hand has to agree with. -/
def checkMeasure (p : Project) (finding : Finding) (given : Option Magnitude) : Except Text Unit :=
  match given, finding.magnitude with
  | none, _ => .ok ()
  | some _, none => .error "magnitude must contain metric and value".toList
  | some magnitude, some measured =>
    if measured.metric ≠ magnitude.metric || magnitude.value < measured.value then
      .error "acknowledgement must use the observed metric and cover its value".toList
    else do
      let digest ← fileContentDigest p finding.file
      if digest = "missing".toList || some digest ≠ finding.contentDigest then
        .error "finding source changed since review; revalidate before acknowledging".toList
      else return ()

def triaged (status : Status) (magnitude : Option Magnitude) (note : Option Text) (now : Text) (finding : Finding) :
    Finding :=
  let acknowledgement := magnitude.map fun magnitude => ⟨magnitude, now⟩
  { finding with
    acknowledgement := acknowledgement
    status := status
    triagedAt := some now
    history := finding.history ++ [{ action := "triage".toList, time := now, fromStatus := some finding.status,
                                     toStatus := some status, note := note, acknowledgement := acknowledgement }] }

/-- `triage`: the document that is written, under its feature. -/
def triage (listing : List (Text × Document)) (p : Project) (findingId : Text) (status : Status)
    (magnitude : Option Magnitude) (note : Option Text) (now : Text) : Except Text (Text × Document) :=
  if !isFindingId findingId then .error "invalid finding ID".toList
  else if magnitude.isSome && !(status = .falsePositive || status = .wontFix) then
    .error "magnitude acknowledgement requires false-positive or wont-fix".toList
  else
    let found := listing.flatMap fun row =>
      (row.2.findings.filter fun finding => finding.findingId = findingId).map fun finding => (row, finding)
    match found with
    | [((featureId, document), finding)] =>
      if !(transferredTo (listing.map Prod.snd) ⟨document.featureId, findingId⟩).isEmpty then
        .error "finding acknowledgement was transferred; triage its destination".toList
      else do
        checkMeasure p finding magnitude
        let findings := document.findings.map fun finding =>
          if finding.findingId = findingId then triaged status magnitude note now finding else finding
        return (featureId, { document with findings := findings, reviewedState := none })
    | found => .error ("expected one finding ".toList ++ findingId ++ ", found ".toList ++ decimal found.length)

end Triage

inductive Act where
  | validate (p : Project) (rounds : Nat) (response mustRead : Json)
  /-- the merge of the result of this number -/
  | merge (i : MergeInput) (result : Nat)
  | triage (p : Project) (findingId : Text) (status : Status) (magnitude : Option Magnitude) (note : Option Text)
      (now : Text)

/-- The feature a response names. -/
def responseFeatureId : Json → Text
  | .obj fields =>
    match getField fields "feature_id".toList with
    | .str featureId => featureId
    | _ => []
  | _ => []

/-- A command that fails writes nothing. -/
def step (h : Host) (s : Store) : Act → Outcome Store
  | .validate p rounds response mustRead =>
    match validateResponse h p (s.listing.map Prod.snd) rounds response (s.stored (responseFeatureId response)) mustRead with
    | .ok validated => .next { s with results := s.results ++ [validated] }
    | .error _ => .next s
  | .merge i result =>
    match s.results[result]? with
    | none => .disabled
    | some validated =>
      match mergeDocument i (s.stored i.featureId) validated with
      | .ok (document, _) => .next { s with documents := s.documents.insert i.featureId document }
      | .error _ => .next s
  | .triage p findingId status magnitude note now =>
    match triage s.listing p findingId status magnitude note now with
    | .ok (featureId, document) => .next { s with documents := s.documents.insert featureId document }
    | .error _ => .next s

/-- A review does not import a prior that the document holds already. -/
def importsFresh (s : Store) : Act → Bool
  | .merge i result =>
    match i.mode, s.results[result]? with
    | .review, some validated => validated.featureId ≠ i.featureId ||
      validated.importedPriors.all fun prior => prior.findingId ∉ (s.stored i.featureId).ids
    | _, _ => true
  | _ => true

section Keeps

variable {h : Host} {s s' : Store}

structure Inv (s : Store) : Prop where
  distinct : ∀ featureId document, s.documents.lookup featureId = some document → document.ids.Nodup
  results : ∀ v ∈ s.results, v.WellFormed

theorem Inv.stored (hinv : Inv s) (featureId : Text) : (s.stored featureId).ids.Nodup := by
  unfold Store.stored
  cases hlook : s.documents.lookup featureId with
  | none => exact List.nodup_nil
  | some document => exact hinv.distinct featureId document hlook

theorem Inv.insert (hinv : Inv s) {featureId : Text} {document : Document} (hdistinct : document.ids.Nodup) :
    Inv { s with documents := s.documents.insert featureId document } := by
  refine ⟨fun featureId' document' hlook => ?_, hinv.results⟩
  by_cases heq : featureId' = featureId
  · subst heq
    cases (AList.lookup_insert s.documents).symm.trans hlook
    exact hdistinct
  · exact hinv.distinct featureId' document' ((AList.lookup_insert_ne heq).symm.trans hlook)

/-- A triage changes a finding in its place. -/
theorem triage_ids {p : Project} {findingId featureId now : Text} {status : Status} {magnitude : Option Magnitude}
    {note : Option Text} {document : Document}
    (htriage : triage s.listing p findingId status magnitude note now = .ok (featureId, document)) :
    ∃ before, s.documents.lookup featureId = some before ∧ document.ids = before.ids := by
  unfold triage at htriage
  split at htriage
  · cases htriage
  · split at htriage
    · cases htriage
    · simp only at htriage
      split at htriage
      · rename_i featureId' before finding hfound
        split at htriage
        · cases htriage
        · obtain ⟨_, -, htriage⟩ := Except.bind_eq_ok.mp htriage
          cases htriage
          have hmem : ((featureId, before), finding) ∈ s.listing.flatMap fun row =>
              (row.2.findings.filter fun finding => finding.findingId = findingId).map fun finding => (row, finding) := by
            rw [hfound]
            exact List.mem_singleton_self _
          obtain ⟨row, hrow, hfinding⟩ := List.mem_flatMap.mp hmem
          obtain ⟨_, -, heq⟩ := List.mem_map.mp hfinding
          cases heq
          refine ⟨before, Table.mem_rows.mp ((List.mem_insertionSort _).mp hrow), ?_⟩
          change (before.findings.map _).map _ = before.findings.map _
          rw [List.map_map]
          refine List.map_congr_left fun f _ => ?_
          change (if f.findingId = findingId then triaged status magnitude note now f else f).findingId = f.findingId
          split <;> rfl
      · cases htriage

theorem inv_step {a : Act} (hinv : Inv s) (hstep : guarded importsFresh (step h) s a = .next s') : Inv s' := by
  obtain ⟨hok, hstep⟩ := guarded_eq_next.mp hstep
  cases a with
  | validate p rounds response mustRead =>
    simp only [step] at hstep
    split at hstep
    · rename_i v hv
      cases hstep
      refine ⟨hinv.distinct, fun v' hv' => ?_⟩
      rcases List.mem_append.mp hv' with hold | hnew
      · exact hinv.results v' hold
      · rw [List.mem_singleton.mp hnew]
        exact (validateResponse_for hv).toWellFormed
    · cases hstep
      exact hinv
  | merge i result =>
    simp only [step] at hstep
    split at hstep
    · cases hstep
    · rename_i v hv
      split at hstep
      · rename_i document summary hm
        cases hstep
        refine hinv.insert (merge_distinct (hinv.results v (List.mem_of_getElem? hv)) (hinv.stored i.featureId) ?_ hm)
        intro hmode id hid hstored
        obtain ⟨prior, hprior, rfl⟩ := List.mem_map.mp hid
        simp only [importsFresh, hmode, hv, Bool.or_eq_true, List.all_eq_true, decide_eq_true_iff] at hok
        rcases hok with hfeature | hfresh
        · rw [mergeDocument, if_pos hfeature] at hm
          cases hm
        · exact hfresh prior hprior hstored
      · cases hstep
        exact hinv
  | triage p findingId status magnitude note now =>
    simp only [step] at hstep
    split at hstep
    · rename_i featureId document htriage
      cases hstep
      obtain ⟨before, hlook, hids⟩ := triage_ids htriage
      refine hinv.insert ?_
      rw [hids]
      exact hinv.distinct featureId before hlook
    · cases hstep
      exact hinv

/-- The finding ids of every document, in every run whose reviews import priors that are not there: they are distinct,
and `triage` finds at most one finding of an id in a document. -/
theorem finding_ids_distinct (hrun : Steps (guarded importsFresh (step h)) Store.empty s) (featureId : Text)
    (document : Document) (hlook : s.documents.lookup featureId = some document) : document.ids.Nodup ∧
      ∀ id, (document.findings.filter fun finding => finding.findingId = id).length ≤ 1 := by
  have hinv : Inv s := by
    refine hrun.invariant (fun _ _ _ hinv hstep => inv_step hinv hstep) ⟨fun _ _ hlook => ?_, nofun⟩
    cases hlook
  have hdistinct := hinv.distinct featureId document hlook
  refine ⟨hdistinct, fun id => ?_⟩
  have hcount := List.nodup_iff_count_le_one.mp hdistinct id
  rw [Document.ids, List.count, List.countP_map, List.countP_eq_length_filter] at hcount
  have hsame : document.findings.filter (fun finding => finding.findingId = id) =
      document.findings.filter ((fun x => x == id) ∘ fun finding => finding.findingId) :=
    List.filter_congr fun _ _ => (beq_eq_decide _ _).symm
  rwa [hsame]

end Keeps

section Example

/-- A finding of one feature is acknowledged, its file is renamed, and a review of another feature returns it. -/
def takenOver : List Act :=
  [.validate (oneFile "a.rs".toList) 1 (oneCandidate "feat_a".toList "a.rs".toList) .null,
    .merge (reviewOf "feat_a".toList) 0,
    .triage (oneFile "a.rs".toList) "fnd_929af62c".toList .wontFix
      (some ⟨"lines".toList, 10, hasText_lines, ten_nonneg⟩) none "2026-01-02T00:00:00Z".toList,
    .validate (oneFile "b.rs".toList) 1 (oneCandidate "feat_b".toList "b.rs".toList) .null,
    .merge (reviewOf "feat_b".toList) 1]

/-- After one merge the document of the second feature holds the imported prior once. -/
theorem finding_ids_distinct_imported : ∃ (s : Store) (document : Document), s.documents.lookup "feat_b".toList = some document ∧
    document.ids = ["fnd_522ffcbf".toList] ∧ document.ids.Nodup := by
  obtain ⟨s, hrun, htest⟩ := steps_of_run (guarded importsFresh (step knownHost)) Store.empty takenOver
    (fun s => ((s.documents.lookup "feat_b".toList).map Document.ids) = some ["fnd_522ffcbf".toList]) (by decide)
  obtain ⟨document, hlook, hids⟩ := Option.map_eq_some_iff.mp (of_decide_eq_true htest)
  exact ⟨s, document, hlook, hids, (finding_ids_distinct hrun _ document hlook).1⟩

/-- The same merge again imports it a second time. -/
theorem merged_again_imports_twice : ∃ (s : Store) (document : Document), Steps (step knownHost) Store.empty s ∧
    s.documents.lookup "feat_b".toList = some document ∧
    document.ids = ["fnd_522ffcbf".toList, "fnd_522ffcbf".toList] ∧ ¬document.ids.Nodup := by
  obtain ⟨s, hrun, htest⟩ := steps_of_run (step knownHost) Store.empty
    (takenOver ++ [.merge (reviewOf "feat_b".toList) 1])
    (fun s => ((s.documents.lookup "feat_b".toList).map Document.ids) =
      some ["fnd_522ffcbf".toList, "fnd_522ffcbf".toList]) (by decide)
  obtain ⟨document, hlook, hids⟩ := Option.map_eq_some_iff.mp (of_decide_eq_true htest)
  refine ⟨s, document, hrun, hlook, hids, ?_⟩
  rw [hids]
  exact fun h => (List.nodup_cons.mp h).1 (List.mem_singleton_self _)

end Example

end Review
end CodeSage
