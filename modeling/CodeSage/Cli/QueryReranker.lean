import Mathlib.Algebra.Order.Ring.Int
import CodeSage.Cli.DaemonEmbedCorrect

/-!
# CodeSage.Cli.QueryReranker

Reranking through the running daemon (`crates/cli/src/query_reranker.rs`): the documents of a query in rounds within the
caps of the daemon, one score each.

A score is of any type with a test for being finite. The daemon answers from a state of its own, as it likes, and `sent`
records the documents of each call. The loop over the rounds takes their number as fuel.
-/

namespace CodeSage
namespace Cli
namespace QueryReranker

open Lib Batching Client Embed

section Model

def maxRerankDocuments : Nat := 32

def maxRerankTextBytes : Nat := 65536

def maxRerankTotalBytes : Nat := 1048576

inductive RerankError where
  | overCap (what : String)
  | inputCaps
  | daemon (text : String)
  | identity
  | scoreCount (scores documents : Nat)
  | nonFinite
  | outOfFuel
deriving DecidableEq, Repr

def checkCaps (query : String) (documents : List String) : Except RerankError Unit :=
  if maxRerankDocuments < documents.length then .error (.overCap "document count")
  else if maxRerankTextBytes < byteLen query then .error (.overCap "query bytes")
  else if documents.any fun d => maxRerankTextBytes < byteLen d then .error (.overCap "document bytes")
  else if maxRerankTotalBytes < byteLen query + (documents.map byteLen).sum then .error (.overCap "total bytes")
  else .ok ()

variable {φ σ : Type}

def checkScores (isFinite : φ → Bool) (scores : List φ) (count : Nat) : Except RerankError Unit :=
  if scores.length ≠ count then .error (.scoreCount scores.length count)
  else if !scores.all isFinite then .error .nonFinite
  else .ok ()

structure RerankPairsResult (φ : Type) where
  model : String
  device : String
  scores : List φ

/-- The daemon, up to the parsed result of a call. -/
abbrev Daemon (φ σ : Type) := String → List String → σ → Except String (RerankPairsResult φ) × σ

/-- A client of the daemon. -/
structure Connection (σ : Type) where
  model : String
  device : String
  world : σ
  sent : List (List String)

variable (daemon : Daemon φ σ) (isFinite : φ → Bool)

def ofExcept : Except RerankError Unit → Client (Connection σ) RerankError Unit
  | .ok () => pure ()
  | .error e => throw e

def call (query : String) (documents : List String) : Client (Connection σ) RerankError (List φ) := do
  ofExcept (checkCaps query documents)
  let answer := daemon query documents (← get).world
  modify fun s => { s with world := answer.2, sent := s.sent ++ [documents] }
  match answer.1 with
  | .error text => throw (.daemon text)
  | .ok result =>
    let s ← get
    if !(result.model = s.model && result.device = s.device) then throw .identity
    ofExcept (checkScores isFinite result.scores documents.length)
    return result.scores

/-- The inner loop: the documents of a round and those after it. -/
def takeRound : Nat → Nat → List String → List String × List String
  | _, _, [] => ([], [])
  | count, bytes, d :: documents =>
    if count < maxRerankDocuments && bytes + byteLen d ≤ maxRerankTotalBytes then
      let (round, rest) := takeRound (count + 1) (bytes + byteLen d) documents
      (d :: round, rest)
    else ([], d :: documents)

/-- The loop over the rounds, with the scores so far. -/
def scoreRounds (query : String) : Nat → List String → List φ → Client (Connection σ) RerankError (List φ)
  | _, [], result => pure result
  | 0, _ :: _, _ => throw .outOfFuel
  | fuel + 1, d :: documents, result => do
    let (round, rest) := takeRound 0 (byteLen query) (d :: documents)
    let scores ← call daemon isFinite query round
    scoreRounds query fuel rest (result ++ scores)

def scorePairs (fuel : Nat) (query : String) (documents : List String) : Client (Connection σ) RerankError (List φ) := do
  if !(byteLen query ≤ maxRerankTextBytes && documents.all fun d => byteLen d ≤ maxRerankTextBytes) then
    throw .inputCaps
  scoreRounds daemon isFinite query fuel documents []

end Model

section Rounds

/-- A round is the start of the documents, and it has one of them at least if the next one fits. -/
theorem takeRound_append (count bytes : Nat) (documents : List String) :
    (takeRound count bytes documents).1 ++ (takeRound count bytes documents).2 = documents := by
  induction documents generalizing count bytes with
  | nil => rfl
  | cons d documents ih =>
    rw [takeRound]
    split
    · exact congrArg (d :: ·) (ih (count + 1) (bytes + byteLen d))
    · rfl

theorem takeRound_within (count bytes : Nat) (documents : List String) (hcount : count ≤ maxRerankDocuments)
    (hbytes : bytes ≤ maxRerankTotalBytes) :
    count + (takeRound count bytes documents).1.length ≤ maxRerankDocuments ∧
      bytes + ((takeRound count bytes documents).1.map byteLen).sum ≤ maxRerankTotalBytes := by
  induction documents generalizing count bytes with
  | nil => exact ⟨hcount, hbytes⟩
  | cons d documents ih =>
    rw [takeRound]
    split
    · next hfits =>
      rw [Bool.and_eq_true, decide_eq_true_eq, decide_eq_true_eq] at hfits
      obtain ⟨hc, hb⟩ := ih (count + 1) (bytes + byteLen d) hfits.1 hfits.2
      simp only [List.length_cons, List.map_cons, List.sum_cons]
      omega
    · exact ⟨hcount, hbytes⟩

/-- Within the caps on single texts the first document fits into a round. -/
theorem takeRound_progress {query : String} {documents : List String} (hquery : byteLen query ≤ maxRerankTextBytes)
    (hdocuments : ∀ d ∈ documents, byteLen d ≤ maxRerankTextBytes) (hne : documents ≠ []) :
    (takeRound 0 (byteLen query) documents).1 ≠ [] := by
  cases documents with
  | nil => exact absurd rfl hne
  | cons d documents =>
    have hd := hdocuments d List.mem_cons_self
    have hfits : (decide (0 < maxRerankDocuments) &&
        decide (byteLen query + byteLen d ≤ maxRerankTotalBytes)) = true := by
      rw [maxRerankTextBytes] at hquery hd
      rw [maxRerankTotalBytes, maxRerankDocuments]
      simp only [Bool.and_eq_true, decide_eq_true_eq]
      omega
    rw [takeRound, if_pos hfits]
    exact List.cons_ne_nil _ _

end Rounds

section Correct

variable {φ σ : Type} {daemon : Daemon φ σ} {isFinite : φ → Bool} {R : String → φ → Prop} {query : String}

/-- Each answer has a score for each document. -/
def Daemon.Answers (daemon : Daemon φ σ) (query : String) (R : String → φ → Prop) : Prop :=
  ∀ documents s result, (daemon query documents s).1 = .ok result → List.Forall₂ R documents result.scores

/-- The calls so far: parts of the documents in order, none of them empty, each within the caps. -/
structure Sent (query : String) (done : List String) (sent : List (List String)) : Prop where
  documents : sent.flatten = done
  nonempty : ∀ round ∈ sent, round ≠ []
  caps : ∀ round ∈ sent, checkCaps query round = .ok ()

/-- The failures that a right answer excludes. -/
def RerankError.Misplaced : RerankError → Prop
  | .overCap _ | .scoreCount _ _ | .outOfFuel => True
  | _ => False

/-- A call within the caps sends its documents and returns their scores. -/
theorem call_ends (hdaemon : daemon.Answers query R) {done round : List String} (hround : round ≠ [])
    (hcaps : checkCaps query round = .ok ()) {s : Connection σ} (hs : Sent query done s.sent) :
    Ends (call daemon isFinite query round) s
      (fun scores t => List.Forall₂ R round scores ∧ Sent query (done ++ round) t.sent)
      fun e t => ¬e.Misplaced ∧ Sent query (done ++ round) t.sent := by
  have hsent : Sent query (done ++ round) (s.sent ++ [round]) := by
    refine ⟨by simp [hs.documents], fun r hr => ?_, fun r hr => ?_⟩
    · rcases List.mem_append.mp hr with hold | hnew
      · exact hs.nonempty r hold
      · rw [List.mem_singleton.mp hnew]
        exact hround
    · rcases List.mem_append.mp hr with hold | hnew
      · exact hs.caps r hold
      · rw [List.mem_singleton.mp hnew]
        exact hcaps
  rw [call, hcaps]
  refine Ends.bind (Ends.pure (Q := fun _ t => s = t) rfl) ?_
  rintro _ _ rfl
  refine Ends.get (Ends.modify ?_)
  dsimp only
  rcases hrun : (daemon query round s.world).1 with text | result
  · exact ⟨id, hsent⟩
  · have hscores := hdaemon round s.world result hrun
    refine Ends.get ?_
    dsimp only
    split
    · exact ⟨id, hsent⟩
    · rw [checkScores, if_neg (not_not.mpr hscores.length_eq.symm)]
      split
      · exact ⟨id, hsent⟩
      · exact ⟨hscores, hsent⟩

theorem checkCaps_round {documents : List String} (hquery : byteLen query ≤ maxRerankTextBytes)
    (hdocuments : ∀ d ∈ documents, byteLen d ≤ maxRerankTextBytes) :
    checkCaps query (takeRound 0 (byteLen query) documents).1 = .ok () := by
  have hbytes : byteLen query ≤ maxRerankTotalBytes := le_trans hquery (by decide)
  obtain ⟨hc, hb⟩ := takeRound_within 0 (byteLen query) documents (Nat.zero_le _) hbytes
  have hsub : ∀ d ∈ (takeRound 0 (byteLen query) documents).1, byteLen d ≤ maxRerankTextBytes := by
    intro d hd
    refine hdocuments d ?_
    rw [← takeRound_append 0 (byteLen query) documents]
    exact List.mem_append_left _ hd
  rw [checkCaps, if_neg (by omega), if_neg (by omega), if_neg, if_neg (by omega)]
  rw [List.any_eq_true]
  rintro ⟨d, hd, hover⟩
  exact absurd (hsub d hd) (not_le.mpr (of_decide_eq_true hover))

/-- The rounds over the documents that are left. -/
theorem scoreRounds_ends (hdaemon : daemon.Answers query R) (hquery : byteLen query ≤ maxRerankTextBytes) (fuel : Nat) :
    ∀ (documents : List String) (done : List String) (result : List φ) {s : Connection σ},
      documents.length ≤ fuel → (∀ d ∈ documents, byteLen d ≤ maxRerankTextBytes) →
      List.Forall₂ R done result → Sent query done s.sent →
      Ends (scoreRounds daemon isFinite query fuel documents result) s
        (fun scores t => List.Forall₂ R (done ++ documents) scores ∧ Sent query (done ++ documents) t.sent)
        fun e t => ¬e.Misplaced ∧ ∃ part, part <+: done ++ documents ∧ Sent query part t.sent := by
  induction fuel with
  | zero =>
    intro documents done result s hfuel _ hresult hs
    obtain rfl := List.eq_nil_of_length_eq_zero (Nat.le_zero.mp hfuel)
    rw [List.append_nil]
    exact ⟨hresult, hs⟩
  | succ fuel ih =>
    intro documents done result s hfuel hdocuments hresult hs
    cases documents with
    | nil =>
      rw [List.append_nil]
      exact ⟨hresult, hs⟩
    | cons d documents =>
      rw [scoreRounds]
      have happend := takeRound_append 0 (byteLen query) (d :: documents)
      have hround := takeRound_progress hquery hdocuments (List.cons_ne_nil d documents)
      have hcaps := checkCaps_round hquery hdocuments
      set round := (takeRound 0 (byteLen query) (d :: documents)).1
      set rest := (takeRound 0 (byteLen query) (d :: documents)).2
      have hrest : rest.length ≤ fuel := by
        have hlen := congrArg List.length happend
        have hpos := List.length_pos_of_ne_nil hround
        rw [List.length_append, List.length_cons] at hlen
        rw [List.length_cons] at hfuel
        omega
      have hin : ∀ x ∈ rest, byteLen x ≤ maxRerankTextBytes := fun x hx =>
        hdocuments x (happend ▸ List.mem_append_right round hx)
      have hall : done ++ d :: documents = done ++ round ++ rest := by rw [List.append_assoc, happend]
      rw [hall]
      refine Ends.bind ((call_ends hdaemon hround hcaps hs).mono (fun _ _ h => h) ?_) ?_
      · rintro e t ⟨he, ht⟩
        exact ⟨he, _, List.prefix_append _ rest, ht⟩
      · rintro scores t ⟨hscores, ht⟩
        exact ih rest (done ++ round) (result ++ scores) hrest hin (List.rel_append hresult hscores) ht

theorem scorePairs_ends (hdaemon : daemon.Answers query R) {fuel : Nat} {documents : List String}
    (hfuel : documents.length ≤ fuel) {s : Connection σ} (hs : s.sent = []) :
    Ends (scorePairs daemon isFinite fuel query documents) s
      (fun scores t => List.Forall₂ R documents scores ∧ Sent query documents t.sent)
      fun e t => ¬e.Misplaced ∧ ∃ part, part <+: documents ∧ Sent query part t.sent := by
  have hnone : Sent query [] s.sent := by
    rw [hs]
    exact ⟨rfl, nofun, nofun⟩
  rw [scorePairs]
  split
  · exact ⟨id, [], List.nil_prefix, hnone⟩
  · next hcaps =>
    rw [Bool.not_eq_true, Bool.not_eq_false', Bool.and_eq_true, decide_eq_true_eq, List.all_eq_true] at hcaps
    exact scoreRounds_ends hdaemon hcaps.1 fuel documents [] [] hfuel
      (fun d hd => of_decide_eq_true (hcaps.2 d hd)) .nil hnone

end Correct

section Main

open DaemonEmbed in
/-- No planner attaches a vector or a score to another text: not the batches by length, not the requests to the daemon with
their retries and their private fallback, not the rounds of the reranker. -/
theorem batches_in_place {σ ε ν α φ : Type} (texts : List String) (batchSize maxTextBytes maxBatchBytes : Nat)
    {stopped : σ → Bool} {embed : EmbedFn σ ε ν} {IsVector : String → ν → Prop} (hembed : embed.Answers IsVector)
    (s : EmbedStats × σ) {w : DaemonEmbed.World α σ} {IsRow : String → List α → Prop} (hw : w.Answers IsRow) {d : DaemonEmbedder σ}
    (hd : d.sent = []) {daemon : Daemon φ σ} {isFinite : φ → Bool} {query : String} {IsScore : String → φ → Prop}
    (hdaemon : daemon.Answers query IsScore) {fuel : Nat} (hfuel : texts.length ≤ fuel) {c : Connection σ}
    (hc : c.sent = []) :
    (BatchPlan.Partitions texts batchSize maxTextBytes maxBatchBytes
        (BatchPlan.new texts batchSize maxTextBytes maxBatchBytes) ∧
      Ends ((BatchPlan.new texts batchSize maxTextBytes maxBatchBytes).run texts stopped embed) s
        (fun vectors _ => List.Forall₂ IsVector texts vectors) fun e _ => e.Outside stopped embed) ∧
    (Ends (embedBatch w texts) d (fun rows t => List.Forall₂ IsRow texts rows ∧ SentWithin t)
        (Fails (w.Reliable d.dim ∧ d.Ready d.dim)) ∧
      ∀ chunk t, Ends (DaemonEmbed.call w chunk) t (fun result _ => (w.embedTexts chunk t.world).1 = .ok result)
        fun e _ => (w.embedTexts chunk t.world).1 = .error e) ∧
    Ends (scorePairs daemon isFinite fuel query texts) c
      (fun scores t => List.Forall₂ IsScore texts scores ∧ Sent query texts t.sent)
      fun e t => ¬e.Misplaced ∧ ∃ part, part <+: texts ∧ Sent query part t.sent := by
  have hplan := BatchPlan.new_partitions texts batchSize maxTextBytes maxBatchBytes
  exact ⟨⟨hplan, BatchPlan.run_placed hembed hplan s⟩, ⟨embedBatch_placed hw texts hd, call_answer hw⟩,
    scorePairs_ends hdaemon hfuel hc⟩

end Main

section Example

open DaemonEmbed

/-- The length of a text as its vector. -/
def lengthRow (text : String) : List Nat := [byteLen text]

def IsLengthRow (text : String) (row : List Nat) : Prop := row = lengthRow text

theorem lengthRows (chunk : List String) : List.Forall₂ IsLengthRow chunk (chunk.map lengthRow) := by
  induction chunk with
  | nil => exact .nil
  | cons text chunk ih => exact .cons rfl ih

/-- A daemon that is saturated at its first call. -/
def busyOnce : DaemonEmbed.World Nat Nat where
  embedTexts chunk calls :=
    if calls = 0 then (.error ⟨"daemon refused embed_texts (E_SATURATED)", some ⟨.busy, false⟩⟩, 1)
    else (.ok ⟨1, chunk.map lengthRow⟩, calls + 1)
  openSession calls := (.ok (), calls)
  shortAfterReopen calls := (false, calls)
  shortForRetry _ calls := (true, calls)
  loadPrivate _ calls := (.ok (), calls)
  privateEmbed chunk calls := (.ok (chunk.map lengthRow), calls)

theorem busyOnce_answers : busyOnce.Answers IsLengthRow where
  daemon chunk calls result h := by
    rw [busyOnce] at h
    dsimp only at h
    split at h
    · cases h
    · cases h
      exact lengthRows chunk
  «private» chunk calls vectors h := by
    cases h
    exact lengthRows chunk

def embedLengths : EmbedFn Nat Empty (List Nat) := fun chunk s => (.ok (chunk.map lengthRow), s)

def rerankLengths : Daemon Nat Nat := fun _ documents calls => (.ok ⟨"m", "cpu", documents.map byteLen⟩, calls)

def freshEmbedder : DaemonEmbedder Nat where
  dim := 1
  retries := 2
  expectedFingerprint := some "f"
  privateInit := true
  privateLoaded := false
  sessionLost := false
  busyBatches := 0
  bypassDaemon := false
  world := 0
  sent := []

theorem batches_in_place_for_a_busy_daemon :
    (BatchPlan.Partitions ["bb", "a"] 8 100 100 (BatchPlan.new ["bb", "a"] 8 100 100) ∧
      Ends ((BatchPlan.new ["bb", "a"] 8 100 100).run ["bb", "a"] (fun _ => false) embedLengths) ({}, 0)
        (fun vectors _ => List.Forall₂ IsLengthRow ["bb", "a"] vectors) fun e _ => e.Outside (fun _ => false) embedLengths) ∧
    (Ends (embedBatch busyOnce ["bb", "a"]) freshEmbedder
        (fun rows t => List.Forall₂ IsLengthRow ["bb", "a"] rows ∧ SentWithin t)
        (Fails (busyOnce.Reliable freshEmbedder.dim ∧ freshEmbedder.Ready freshEmbedder.dim)) ∧
      ∀ chunk t, Ends (DaemonEmbed.call busyOnce chunk) t
        (fun result _ => (busyOnce.embedTexts chunk t.world).1 = .ok result)
        fun e _ => (busyOnce.embedTexts chunk t.world).1 = .error e) ∧
    Ends (scorePairs rerankLengths (fun _ => true) 2 "q" ["bb", "a"]) ⟨"m", "cpu", 0, []⟩
      (fun scores t => List.Forall₂ (fun d score => score = byteLen d) ["bb", "a"] scores ∧ Sent "q" ["bb", "a"] t.sent)
      fun e t => ¬e.Misplaced ∧ ∃ part, part <+: ["bb", "a"] ∧ Sent "q" part t.sent := by
  refine batches_in_place ["bb", "a"] 8 100 100 ?_ ({}, 0) busyOnce_answers rfl ?_ le_rfl rfl
  · intro chunk s vectors t h
    cases h
    exact lengthRows chunk
  · intro documents calls result h
    cases h
    exact List.forall₂_map_right_iff.mpr (List.forall₂_same.mpr fun _ _ => rfl)

end Example

end QueryReranker
end Cli
end CodeSage
