import CodeSage.Lib.Batching
import CodeSage.Lib.Client
import Mathlib.Data.List.Range

/-!
# CodeSage.Embed.BatchPlan

How `Embedder::embed_batch` splits a set of texts (`crates/embed/src/model.rs`): batches of texts of similar length, and
their vectors back in the order of the texts. Vectors are of any type and the embedder is a parameter, in a state of its
own beside the counters.
-/

namespace CodeSage
namespace Embed

open Lib Batching Client

/-- `str::len` -/
def byteLen (text : String) : Nat := text.utf8ByteSize

section Plan

structure BatchPlan where
  batches : List (List Nat)
  texts : Nat
deriving DecidableEq, Repr

namespace BatchPlan

def byteLenAt (texts : List String) (i : Nat) : Nat := (texts[i]?.map byteLen).getD 0

/-- The texts ordered by length, those of one length as they came. -/
def order (texts : List String) : List Nat :=
  (List.range texts.length).mergeSort fun i j => decide (byteLenAt texts i ≤ byteLenAt texts j)

/-- The inner loop goes on: the next text is the longest one of its batch. -/
def fits (texts : List String) (batchSize maxTextBytes maxBatchBytes : Nat) (batch : List Nat) (i : Nat) : Bool :=
  let rows := batch.length + 1
  let longest := min (byteLenAt texts i) maxTextBytes
  !(decide (batchSize < rows) || decide (maxBatchBytes < rows * longest))

def new (texts : List String) (batchSize maxTextBytes maxBatchBytes : Nat) : BatchPlan where
  batches := Batching.batches (fits texts batchSize maxTextBytes maxBatchBytes) (order texts)
  texts := texts.length

end BatchPlan

end Plan

section Run

structure EmbedStats where
  plannedBatches : Nat := 0
  completedBatches : Nat := 0
  tokens : Nat := 0
  paddedTokens : Nat := 0
deriving DecidableEq, Repr

inductive RunError (ε : Type) where
  | planTexts (planned supplied : Nat)
  | stopped
  | embedder (e : ε)
  | vectors (produced texts : Nat)
  | panicked

variable {σ ε ν : Type}

/-- The closure that is run on a batch. -/
abbrev EmbedFn (σ ε ν : Type) := List String → EmbedStats × σ → Except ε (List ν) × (EmbedStats × σ)

namespace BatchPlan

/-- One turn of the loop over the batches. -/
def runBatch (texts : List String) (stopped : σ → Bool) (embed : EmbedFn σ ε ν) (slots : List (Option ν))
    (batch : List Nat) : Client (EmbedStats × σ) (RunError ε) (List (Option ν)) := do
  if stopped (← get).2 then throw .stopped
  let batchTexts ← orThrow .panicked (gather texts batch)
  match ← attempt (embed batchTexts) with
  | .error e => throw (.embedder e)
  | .ok embeddings =>
    modify fun s => ({ s.1 with completedBatches := s.1.completedBatches + 1 }, s.2)
    if embeddings.length ≠ batch.length then throw (.vectors embeddings.length batch.length)
    orThrow .panicked (scatter slots batch embeddings)

def run (plan : BatchPlan) (texts : List String) (stopped : σ → Bool) (embed : EmbedFn σ ε ν) :
    Client (EmbedStats × σ) (RunError ε) (List ν) := do
  if texts.length ≠ plan.texts then throw (.planTexts plan.texts texts.length)
  modify fun s => ({ s.1 with plannedBatches := s.1.plannedBatches + plan.batches.length }, s.2)
  let slots ← Client.fold (runBatch texts stopped embed) (List.replicate texts.length none) plan.batches
  orThrow .panicked (collect slots)

end BatchPlan

end Run

section PlanCorrect

variable (texts : List String) (batchSize maxTextBytes maxBatchBytes : Nat)

/-- A batch is a single text or within both caps; its padded size is its number of rows times its longest text, each text
counted up to the cap. -/
structure BatchWithin (batch : List Nat) : Prop where
  nonempty : batch ≠ []
  rows : batch.length ≤ max batchSize 1
  padded : batch.length = 1 ∨ ∀ i ∈ batch, batch.length * min (BatchPlan.byteLenAt texts i) maxTextBytes ≤ maxBatchBytes

/-- The plan puts every text into one batch. -/
structure BatchPlan.Partitions (plan : BatchPlan) : Prop where
  count : plan.texts = texts.length
  perm : plan.batches.flatten.Perm (List.range texts.length)
  within : ∀ batch ∈ plan.batches, BatchWithin texts batchSize maxTextBytes maxBatchBytes batch

variable {texts batchSize maxTextBytes maxBatchBytes}

namespace BatchPlan

theorem order_perm : (order texts).Perm (List.range texts.length) := List.mergeSort_perm _ _

theorem order_sorted : (order texts).Pairwise fun i j => byteLenAt texts i ≤ byteLenAt texts j := by
  have hsorted := @List.pairwise_mergeSort _ (fun i j => decide (byteLenAt texts i ≤ byteLenAt texts j))
    (fun a b c hab hbc => decide_eq_true (le_trans (of_decide_eq_true hab) (of_decide_eq_true hbc)))
    (fun a b => by simpa using le_total (byteLenAt texts a) (byteLenAt texts b)) (List.range texts.length)
  exact hsorted.imp fun h => of_decide_eq_true h

/-- A batch in ascending order whose last text fitted is within the caps. -/
theorem within_of_grown {batch : List Nat} (h : Grown (fits texts batchSize maxTextBytes maxBatchBytes) batch)
    (hsorted : batch.Pairwise fun i j => byteLenAt texts i ≤ byteLenAt texts j) :
    BatchWithin texts batchSize maxTextBytes maxBatchBytes batch := by
  refine ⟨h.ne_nil, ?_, ?_⟩
  · cases h with
    | one => exact le_max_right batchSize 1
    | more _ hfits =>
      simp only [fits, Bool.not_eq_true', Bool.or_eq_false_iff, decide_eq_false_iff_not, not_lt] at hfits
      simp only [List.length_append, List.length_singleton]
      omega
  · cases h with
    | one => exact .inl rfl
    | @more batch last _ hfits =>
      simp only [fits, Bool.not_eq_true', Bool.or_eq_false_iff, decide_eq_false_iff_not, not_lt] at hfits
      refine .inr fun i hi => ?_
      rw [List.length_append, List.length_singleton]
      refine le_trans (Nat.mul_le_mul_left _ ?_) hfits.2
      have hle : byteLenAt texts i ≤ byteLenAt texts last := by
        rcases List.mem_append.mp hi with hold | hnew
        · exact (List.pairwise_append.mp hsorted).2.2 i hold last List.mem_cons_self
        · rw [List.mem_singleton.mp hnew]
      omega

theorem new_partitions (texts : List String) (batchSize maxTextBytes maxBatchBytes : Nat) :
    Partitions texts batchSize maxTextBytes maxBatchBytes (new texts batchSize maxTextBytes maxBatchBytes) where
  count := rfl
  perm := by
    rw [new, batches_flatten]
    exact order_perm
  within batch hbatch := by
    refine within_of_grown (batches_grown (order texts) batch hbatch) (List.Pairwise.sublist ?_ order_sorted)
    rw [← @batches_flatten _ (fits texts batchSize maxTextBytes maxBatchBytes) (order texts)]
    exact List.sublist_flatten_of_mem hbatch

end BatchPlan

end PlanCorrect

section RunCorrect

variable {σ ε ν : Type} {texts : List String}

/-- Each call of the embedder that succeeds returns one vector a text. -/
def EmbedFn.Answers (embed : EmbedFn σ ε ν) (R : String → ν → Prop) : Prop :=
  ∀ chunk s vectors t, embed chunk s = (.ok vectors, t) → List.Forall₂ R chunk vectors

/-- The failures that are not the plan's: a stop, or a call that failed. -/
def RunError.Outside (stopped : σ → Bool) (embed : EmbedFn σ ε ν) : RunError ε → Prop
  | .stopped => ∃ s, stopped s = true
  | .embedder e => ∃ chunk s, (embed chunk s).1 = .error e
  | .planTexts _ _ | .vectors _ _ | .panicked => False

namespace BatchPlan

variable {stopped : σ → Bool} {embed : EmbedFn σ ε ν} {R : String → ν → Prop}

theorem runBatch_placed (hembed : embed.Answers R) {slots : List (Option ν)} {done : Nat → Prop}
    (hplaced : Placed R texts done slots) {batch : List Nat} (hbatch : ∀ i ∈ batch, i < texts.length)
    (s : EmbedStats × σ) :
    Ends (runBatch texts stopped embed slots batch) s
      (fun slots' _ => Placed R texts (fun i => done i ∨ i ∈ batch) slots') fun e _ => e.Outside stopped embed := by
  obtain ⟨chunk, hchunk, hplaces⟩ := gather_some hbatch
  refine Ends.get ?_
  by_cases hstop : stopped s.2
  · rw [if_pos hstop]
    exact ⟨s.2, hstop⟩
  · rw [if_neg hstop]
    refine Ends.orThrow hchunk (Ends.attempt (Q := fun vectors _ => List.Forall₂ R chunk vectors)
      (E := fun e _ => (embed chunk s).1 = .error e) ?_ ?_ ?_)
    · rw [Client.Ends]
      rcases hrun : embed chunk s with ⟨r, t⟩
      cases r with
      | ok vectors => exact hembed chunk s vectors t hrun
      | error e => exact rfl
    · intro vectors t hvectors
      obtain ⟨slots', hrun, hplaced'⟩ := hplaced.scatter hplaces hvectors
      have hlen : vectors.length = batch.length := by rw [← hvectors.length_eq, ← hplaces.length_eq]
      refine Ends.modify ?_
      rw [if_neg (not_not.mpr hlen)]
      rw [hrun]
      exact hplaced'
    · exact fun e _ h => ⟨chunk, s, h⟩

/-- The vector of each text stands at the place of the text, whatever the embedder does between the calls. -/
theorem run_placed (hembed : embed.Answers R) {batchSize maxTextBytes maxBatchBytes : Nat} {plan : BatchPlan}
    (hplan : plan.Partitions texts batchSize maxTextBytes maxBatchBytes) (s : EmbedStats × σ) :
    Ends (plan.run texts stopped embed) s (fun vectors _ => List.Forall₂ R texts vectors) fun e _ => e.Outside stopped embed := by
  have hin : ∀ batch ∈ plan.batches, ∀ i ∈ batch, i < texts.length := fun batch hbatch i hi =>
    List.mem_range.mp (hplan.perm.subset (List.mem_flatten.mpr ⟨batch, hbatch, hi⟩))
  rw [run, if_neg (not_not.mpr hplan.count.symm)]
  refine Ends.modify (Ends.bind (Ends.fold
    (I := fun done slots _ => Placed R texts (fun i => i ∈ done.flatten) slots) ?_ ?_) ?_)
  · exact (placed_empty R texts).mono fun i hi => List.not_mem_nil hi
  · intro done batch rest slots t hsplit hplaced
    have hbatch : batch ∈ plan.batches := hsplit ▸ List.mem_append_right _ List.mem_cons_self
    refine (runBatch_placed hembed hplaced (hin batch hbatch) t).mono (fun slots' _ h => h.mono fun i hi => ?_)
      fun _ _ h => h
    simpa using hi
  · intro slots t hplaced
    obtain ⟨vectors, hcollect, hall⟩ := hplaced.collect fun i hi => hplan.perm.symm.subset (List.mem_range.mpr hi)
    rw [hcollect]
    exact hall

end BatchPlan

end RunCorrect

end Embed
end CodeSage
