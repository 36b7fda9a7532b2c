import CodeSage.Cli.DaemonEmbed

/-!
# CodeSage.Cli.DaemonEmbedCorrect

Each text gets its vector from the daemon or from the private embedder, whatever goes wrong between, and no request is over
a cap.
-/

namespace CodeSage
namespace Cli
namespace DaemonEmbed

open Lib Batching Client Embed

section Plan

variable {maxText maxTotal maxCount : Nat}

/-- A batch that may be one request, by the lengths of its texts. -/
structure PlacesWithin (maxText maxTotal maxCount : Nat) (len : Nat → Nat) (batch : List Nat) : Prop where
  count : batch.length ≤ maxCount
  total : (batch.map len).sum ≤ maxTotal
  each : ∀ i ∈ batch, len i ≤ maxText

/-- The texts seen so far are in a batch each or set aside. -/
structure EmbedPlan.Ok (maxText maxTotal maxCount : Nat) (len : Nat → Nat) (seen : List Nat) (plan : EmbedPlan) : Prop where
  perm : (plan.batches.flatten ++ plan.current ++ plan.oversize).Perm seen
  bytes : plan.currentBytes = (plan.current.map len).sum
  current : PlacesWithin maxText maxTotal maxCount len plan.current
  batches : ∀ batch ∈ plan.batches, PlacesWithin maxText maxTotal maxCount len batch

variable {len : Nat → Nat} {seen : List Nat} {plan : EmbedPlan}

/-- A text goes to a batch that has room for it. -/
theorem PlacesWithin.append {batch : List Nat} (h : PlacesWithin maxText maxTotal maxCount len batch) {i : Nat}
    (hcount : batch.length < maxCount) (htotal : (batch.map len).sum + len i ≤ maxTotal) (hlen : len i ≤ maxText) :
    PlacesWithin maxText maxTotal maxCount len (batch ++ [i]) where
  count := by
    rw [List.length_append]
    exact hcount
  total := by simpa using htotal
  each j hj := by
    rcases List.mem_append.mp hj with hold | hnew
    · exact h.each j hold
    · rw [List.mem_singleton.mp hnew]
      exact hlen

theorem EmbedPlan.Ok.add (hcaps : maxText ≤ maxTotal ∧ 1 ≤ maxCount)
    (h : EmbedPlan.Ok maxText maxTotal maxCount len seen plan) (i : Nat) :
    EmbedPlan.Ok maxText maxTotal maxCount len (seen ++ [i]) (EmbedPlan.add maxText maxTotal maxCount plan (len i, i)) := by
  obtain ⟨hperm, hbytes, hcurrent, hbatches⟩ := h
  by_cases hover : maxText < len i
  · rw [EmbedPlan.add, if_pos hover]
    exact ⟨by simpa [List.append_assoc] using hperm.append_right [i], hbytes, hcurrent, hbatches⟩
  · have hlen : len i ≤ maxText := not_lt.mp hover
    have hmove : ∀ xs ys : List Nat, (xs ++ ys).Perm seen → (xs ++ [i] ++ ys).Perm (seen ++ [i]) := fun xs ys hseen => by
      rw [List.append_assoc, List.singleton_append]
      exact List.perm_middle.trans ((hseen.cons i).trans (List.perm_append_singleton i seen).symm)
    simp only [EmbedPlan.add, if_neg hover]
    by_cases hfull : (!plan.current.isEmpty &&
        (decide (maxCount ≤ plan.current.length) || decide (maxTotal < plan.currentBytes + len i))) = true
    · rw [if_pos hfull]
      refine ⟨?_, by simp, ⟨by simpa using hcaps.2, by simpa using le_trans hlen hcaps.1, by simpa using hlen⟩, ?_⟩
      · simpa [List.append_assoc] using hmove (plan.batches.flatten ++ plan.current) plan.oversize hperm
      · intro batch hbatch
        rcases List.mem_append.mp hbatch with hold | hnew
        · exact hbatches batch hold
        · rw [List.mem_singleton.mp hnew]
          exact hcurrent
    · rw [if_neg hfull]
      refine ⟨?_, by simp [hbytes], ?_, hbatches⟩
      · simpa [List.append_assoc] using hmove (plan.batches.flatten ++ plan.current) plan.oversize hperm
      · rcases List.eq_nil_or_concat plan.current with hnil | ⟨init, last, hlast⟩
        · rw [hnil]
          exact ⟨by simpa using hcaps.2, by simpa using le_trans hlen hcaps.1, by simpa using hlen⟩
        · have hne : plan.current.isEmpty = false := by simp [hlast]
          rw [hne, Bool.not_false, Bool.true_and, Bool.or_eq_true, decide_eq_true_eq, decide_eq_true_eq, not_or, not_le,
            not_lt, hbytes] at hfull
          exact hcurrent.append hfull.1 hfull.2 hlen

theorem foldl_add_ok (hcaps : maxText ≤ maxTotal ∧ 1 ≤ maxCount) (entries : List (Nat × Nat))
    (hlen : ∀ e ∈ entries, e.1 = len e.2) (h : EmbedPlan.Ok maxText maxTotal maxCount len seen plan) :
    EmbedPlan.Ok maxText maxTotal maxCount len (seen ++ entries.map Prod.snd)
      (entries.foldl (EmbedPlan.add maxText maxTotal maxCount) plan) := by
  induction entries generalizing seen plan with
  | nil => simpa using h
  | cons e entries ih =>
    obtain ⟨l, i⟩ := e
    obtain rfl : l = len i := hlen _ List.mem_cons_self
    have hrest := ih (fun e he => hlen e (List.mem_cons_of_mem _ he)) (h.add hcaps i)
    rwa [List.append_assoc, List.singleton_append] at hrest

/-- The byte length of the text at a place. -/
def lenAt (lens : List Nat) (i : Nat) : Nat := lens[i]?.getD 0

/-- Every text is in one request or set aside, and every request is within the caps. -/
theorem planEmbedBatches_within (hcaps : maxText ≤ maxTotal ∧ 1 ≤ maxCount) (lens : List Nat)
    {batches : List (List Nat)} {oversize : List Nat}
    (hplan : planEmbedBatches lens maxText maxTotal maxCount = (batches, oversize)) :
    (batches.flatten ++ oversize).Perm (List.range lens.length) ∧
      ∀ batch ∈ batches, PlacesWithin maxText maxTotal maxCount (lenAt lens) batch := by
  have hempty : EmbedPlan.Ok maxText maxTotal maxCount (lenAt lens) [] {} :=
    ⟨List.Perm.refl _, rfl, ⟨Nat.zero_le _, Nat.zero_le _, nofun⟩, nofun⟩
  have hentries : ∀ e ∈ lens.zipIdx, e.1 = lenAt lens e.2 := fun e he => by
    rw [lenAt, List.mem_zipIdx_iff_getElem?.mp he, Option.getD_some]
  have h := foldl_add_ok hcaps lens.zipIdx hentries hempty
  rw [List.nil_append, List.zipIdx_map_snd, ← List.range_eq_range'] at h
  rw [planEmbedBatches] at hplan
  simp only [Prod.mk.injEq] at hplan
  obtain ⟨rfl, rfl⟩ := hplan
  split
  · next hnil =>
    refine ⟨?_, h.batches⟩
    simpa [List.isEmpty_iff.mp hnil] using h.perm
  · refine ⟨by simpa [List.append_assoc] using h.perm, fun batch hbatch => ?_⟩
    rcases List.mem_append.mp hbatch with hold | hnew
    · exact h.batches batch hold
    · rw [List.mem_singleton.mp hnew]
      exact h.current

example : planEmbedBatches [3, 9, 4, 4] 8 7 2 = ([[0, 2], [3]], [1]) := by decide

end Plan

section Calls

variable {α σ : Type} {w : World α σ} {R : String → List α → Prop}

/-- A request that the daemon takes, of a size that lets others take turns. -/
structure RequestWithin (chunk : List String) : Prop where
  count : chunk.length ≤ daemonCallMaxTexts
  bytes : (chunk.map byteLen).sum ≤ daemonCallMaxBytes
  caps : checkEmbedTextsCaps chunk = true

def SentWithin (s : DaemonEmbedder σ) : Prop := ∀ chunk ∈ s.sent, RequestWithin chunk

/-- Each answer with vectors has one for each text. -/
structure World.Answers (w : World α σ) (R : String → List α → Prop) : Prop where
  daemon : ∀ chunk s result, (w.embedTexts chunk s).1 = .ok result → List.Forall₂ R chunk result.embeddings
  «private» : ∀ chunk s vectors, (w.privateEmbed chunk s).1 = .ok vectors → List.Forall₂ R chunk vectors

/-- The daemon may fail in any way but keeps the dimension and the fingerprint of its vectors, and the private embedder
works. -/
structure World.Reliable (w : World α σ) (dim : Nat) : Prop where
  daemon : ∀ chunk s result, (w.embedTexts chunk s).1 = .ok result →
    result.dim = dim ∧ ∀ row ∈ result.embeddings, row.length = dim
  refusal : ∀ chunk s e, (w.embedTexts chunk s).1 = .error e → isFingerprintRefusal e = false
  reopen : ∀ s reconnect, (w.openSession s).1 = .error reconnect →
    ∀ lastError, (∀ e ∈ lastError, isFingerprintRefusal e = false) →
      isFingerprintRefusal (reconnectError lastError reconnect) = false
  load : ∀ expected s, (w.loadPrivate expected s).1 = .ok ()
  embed : ∀ chunk s, ∃ vectors, (w.privateEmbed chunk s).1 = .ok vectors ∧ ∀ row ∈ vectors, row.length = dim

/-- Bound to a fingerprint, with a private embedder to fall back to. -/
structure DaemonEmbedder.Ready (dim : Nat) (s : DaemonEmbedder σ) : Prop where
  dim : s.dim = dim
  fingerprint : s.expectedFingerprint.isSome = true
  fallback : (s.privateInit || s.privateLoaded) = true

/-- What is not a failure of the outside: a count that is wrong, or a panic. -/
def EmbedError.Misplaced : EmbedError → Prop
  | .privateCount _ _ | .panicked => True
  | _ => False

/-- What each step keeps, `P` standing for a reliable outside. -/
structure Sound (P : Prop) (dim : Nat) (s : DaemonEmbedder σ) : Prop where
  sent : SentWithin s
  ready : P → s.Ready dim

/-- A failure of the outside, with all requests within the caps. -/
structure Fails (P : Prop) (e : EmbedError) (s : DaemonEmbedder σ) : Prop where
  outside : ¬e.Misplaced
  sent : SentWithin s
  unreliable : ¬P

/-- A failure that a private embedder may stand in for. -/
structure CallFails (P : Prop) (dim : Nat) (e : CallError) (s : DaemonEmbedder σ) : Prop where
  sound : Sound P dim s
  refusal : P → isFingerprintRefusal e = false

variable {P : Prop} {dim : Nat}

theorem ends_ask {ε β γ : Type} {answer : σ → β × σ} {f : β → Client (DaemonEmbedder σ) ε γ} {s : DaemonEmbedder σ}
    {Q : γ → DaemonEmbedder σ → Prop} {E : ε → DaemonEmbedder σ → Prop}
    (h : Ends (f (answer s.world).1) { s with world := (answer s.world).2 } Q E) : Ends (ask answer >>= f) s Q E := h

theorem Sound.of_eq {s t : DaemonEmbedder σ} (h : Sound P dim s) (hsent : t.sent = s.sent) (hdim : t.dim = s.dim)
    (hfingerprint : t.expectedFingerprint = s.expectedFingerprint) (hinit : t.privateInit = s.privateInit)
    (hloaded : t.privateLoaded = s.privateLoaded) : Sound P dim t where
  sent := by
    rw [SentWithin, hsent]
    exact h.sent
  ready hP := by
    obtain ⟨hd, hf, hb⟩ := h.ready hP
    exact ⟨hdim.trans hd, hfingerprint ▸ hf, hinit ▸ hloaded ▸ hb⟩

/-- The count of an answer is right: it is what the call returns. -/
theorem call_answer (hw : w.Answers R) (texts : List String) (s : DaemonEmbedder σ) :
    Ends (call w texts) s (fun result _ => (w.embedTexts texts s.world).1 = .ok result)
      fun e _ => (w.embedTexts texts s.world).1 = .error e := by
  refine Ends.modify (ends_ask ?_)
  dsimp only
  rcases hrun : (w.embedTexts texts s.world).1 with e | result
  · exact rfl
  · dsimp only
    rw [if_neg (not_not.mpr (hw.daemon texts s.world result hrun).length_eq.symm)]
    exact rfl

/-- What a right answer of the daemon has for a batch. -/
structure Delivered (R : String → List α → Prop) (P : Prop) (dim : Nat) (texts : List String)
    (result : EmbedTextsResult α) : Prop where
  rows : List.Forall₂ R texts result.embeddings
  dims : P → result.dim = dim ∧ ∀ row ∈ result.embeddings, row.length = dim

theorem Sound.request {s : DaemonEmbedder σ} (h : Sound P dim s) {texts : List String} (htexts : RequestWithin texts)
    (world : σ) : Sound P dim { s with sent := s.sent ++ [texts], world } where
  sent chunk hchunk := by
    rcases List.mem_append.mp hchunk with hold | hnew
    · exact h.sent chunk hold
    · rw [List.mem_singleton.mp hnew]
      exact htexts
  ready hP := ⟨(h.ready hP).dim, (h.ready hP).fingerprint, (h.ready hP).fallback⟩

theorem call_ends (hw : w.Answers R) (hP : P → w.Reliable dim) {texts : List String} (htexts : RequestWithin texts)
    {s : DaemonEmbedder σ} (hs : Sound P dim s) :
    Ends (call w texts) s (fun result t => Delivered R P dim texts result ∧ Sound P dim t) (CallFails P dim) := by
  refine Ends.modify (ends_ask ?_)
  dsimp only
  rcases hrun : (w.embedTexts texts s.world).1 with e | result
  · exact ⟨hs.request htexts _, fun h => (hP h).refusal texts s.world e hrun⟩
  · have hvectors := hw.daemon texts s.world result hrun
    dsimp only
    rw [if_neg (not_not.mpr hvectors.length_eq.symm)]
    exact ⟨⟨hvectors, fun h => (hP h).daemon texts s.world result hrun⟩, hs.request htexts _⟩

theorem restoreSession_ends (hP : P → w.Reliable dim) {lastError : Option CallError}
    (hlast : P → ∀ e ∈ lastError, isFingerprintRefusal e = false) {s : DaemonEmbedder σ} (hs : Sound P dim s) :
    Ends (restoreSession w lastError) s (fun _ t => Sound P dim t) (CallFails P dim) := by
  refine Ends.get ?_
  by_cases hlost : s.sessionLost
  · rw [if_pos hlost]
    refine ends_ask ?_
    rcases hrun : (w.openSession s.world).1 with reconnect | _
    · exact ⟨hs.of_eq rfl rfl rfl rfl rfl, fun h => (hP h).reopen s.world reconnect hrun lastError (hlast h)⟩
    · refine Ends.modify ?_
      cases lastError with
      | none => exact hs.of_eq rfl rfl rfl rfl rfl
      | some last =>
        refine ends_ask ?_
        split
        · exact ⟨hs.of_eq rfl rfl rfl rfl rfl, fun h => hlast h last rfl⟩
        · exact hs.of_eq rfl rfl rfl rfl rfl
  · rw [if_neg hlost]
    exact hs

/-- One attempt: a session, a request and what is made of its answer. -/
theorem attempt_ends (hw : w.Answers R) (hP : P → w.Reliable dim) {texts : List String}
    (htexts : RequestWithin texts) {lastError : Option CallError}
    (hlast : P → ∀ e ∈ lastError, isFingerprintRefusal e = false) {s : DaemonEmbedder σ} (hs : Sound P dim s)
    {f : Except CallError (EmbedTextsResult α) → Client (DaemonEmbedder σ) CallError (EmbedTextsResult α)}
    {Q : EmbedTextsResult α → DaemonEmbedder σ → Prop}
    (hok : ∀ result t, Delivered R P dim texts result → Sound P dim t → Ends (f (.ok result)) t Q (CallFails P dim))
    (herror : ∀ e t, CallFails P dim e t → Ends (f (.error e)) t Q (CallFails P dim)) :
    Ends (restoreSession w lastError >>= fun _ => attempt (call w texts) >>= f) s Q (CallFails P dim) :=
  (restoreSession_ends hP hlast hs).bind fun _ _ ht =>
    (call_ends hw hP htexts ht).attempt (fun result u h => hok result u h.1 h.2) herror

/-- However often a batch is sent, its answer has its vectors. -/
theorem callLoop_ends (hw : w.Answers R) (hP : P → w.Reliable dim) {texts : List String} (htexts : RequestWithin texts)
    (left : Nat) : ∀ (retry : Nat) (lastError : Option CallError) {s : DaemonEmbedder σ},
      (P → ∀ e ∈ lastError, isFingerprintRefusal e = false) → Sound P dim s →
      Ends (callLoop w texts left retry lastError) s
        (fun result t => Delivered R P dim texts result ∧ Sound P dim t) (CallFails P dim) := by
  have hlose : ∀ {e : CallError} {t : DaemonEmbedder σ} (reopenSession : Bool), CallFails P dim e t →
      CallFails P dim e { t with sessionLost := reopenSession } := fun _ h =>
    ⟨h.sound.of_eq rfl rfl rfl rfl rfl, h.refusal⟩
  induction left with
  | zero =>
    intro retry lastError s hlast hs
    rw [callLoop]
    refine attempt_ends hw hP htexts hlast hs (fun _ _ hvectors ht => ?_) (fun e t ht => ?_)
    · exact ⟨hvectors, ht⟩
    · dsimp only
      cases e.transient with
      | none => exact ht
      | some transient => exact hlose _ ht
  | succ left ih =>
    intro retry lastError s hlast hs
    rw [callLoop]
    refine attempt_ends hw hP htexts hlast hs (fun _ _ hvectors ht => ?_) (fun e t ht => ?_)
    · exact ⟨hvectors, ht⟩
    · dsimp only
      cases e.transient with
      | none => exact ht
      | some transient =>
        refine Ends.modify (ends_ask ?_)
        split
        · exact ⟨ht.sound.of_eq rfl rfl rfl rfl rfl, ht.refusal⟩
        · refine ih (retry + 1) (some e) (fun h e' he' => ?_) (ht.sound.of_eq rfl rfl rfl rfl rfl)
          obtain rfl := Option.some.inj he'
          exact ht.refusal h

theorem loadPrivate_ends (hP : P → w.Reliable dim) (why : String) {s : DaemonEmbedder σ} (hs : Sound P dim s) :
    Ends (loadPrivate w why) s (fun _ t => Sound P dim t) (Fails P) := by
  refine Ends.get ?_
  by_cases hloaded : (!s.privateLoaded) = true
  · rw [if_pos hloaded]
    rw [Bool.not_eq_true'] at hloaded
    refine Ends.get ?_
    by_cases hinit : (!s.privateInit) = true
    · rw [if_pos hinit]
      rw [Bool.not_eq_true'] at hinit
      refine ⟨id, hs.sent, fun h => ?_⟩
      simpa [hinit, hloaded] using (hs.ready h).fallback
    · rw [if_neg hinit]
      refine Ends.modify (Ends.get ?_)
      dsimp only
      rcases hexpected : s.expectedFingerprint with _ | expected
      · refine ⟨id, hs.sent, fun h => ?_⟩
        simpa [hexpected] using (hs.ready h).fingerprint
      · refine ends_ask ?_
        dsimp only
        rcases hrun : (w.loadPrivate expected s.world).1 with text | _
        · refine ⟨id, hs.sent, fun h => ?_⟩
          simp [(hP h).load expected s.world] at hrun
        · exact ⟨hs.sent, fun h => ⟨(hs.ready h).dim, rfl, Bool.or_true _⟩⟩
  · rw [if_neg hloaded]
    exact hs

theorem wrongDimension_eq_none {rows : List (List α)} (h : ∀ row ∈ rows, row.length = dim) :
    wrongDimension dim rows = none := by
  rw [wrongDimension, Option.map_eq_none_iff, List.find?_eq_none]
  intro e he
  rw [decide_eq_true_eq, not_not]
  exact h e.1 (List.mem_of_getElem? (List.mem_zipIdx_iff_getElem?.mp he))

theorem privateEmbed_ends (hw : w.Answers R) (hP : P → w.Reliable dim) (texts : List String) (why : String)
    {s : DaemonEmbedder σ} (hs : Sound P dim s) :
    Ends (privateEmbed w texts why) s (fun rows t => List.Forall₂ R texts rows ∧ Sound P dim t) (Fails P) := by
  refine (loadPrivate_ends hP why hs).bind fun _ t ht => ends_ask ?_
  rcases hrun : (w.privateEmbed texts t.world).1 with text | rows
  · refine ⟨id, ht.sent, fun h => ?_⟩
    obtain ⟨rows, hok, -⟩ := (hP h).embed texts t.world
    rw [hok] at hrun
    cases hrun
  · have hrows := hw.private texts t.world rows hrun
    simp only [if_neg (not_not.mpr hrows.length_eq.symm)]
    refine Ends.get ?_
    dsimp only
    rcases hdims : wrongDimension t.dim rows with _ | ⟨i, values⟩
    · exact ⟨hrows, ht.of_eq rfl rfl rfl rfl rfl⟩
    · refine ⟨id, ht.sent, fun h => ?_⟩
      obtain ⟨rows', hok, hdim⟩ := (hP h).embed texts t.world
      obtain rfl : rows' = rows := Except.ok.inj (hok.symm.trans hrun)
      rw [(ht.ready h).dim, wrongDimension_eq_none hdim] at hdims
      cases hdims

theorem noteFailure_ends (e : CallError) {s : DaemonEmbedder σ} (hs : Sound P dim s) :
    Ends (noteFailure e) s (fun _ t => Sound P dim t) (Fails P) := by
  rw [noteFailure]
  rcases e.transient.map TransientFailure.kind with _ | kind
  · exact hs
  · cases kind
    · exact hs.of_eq rfl rfl rfl rfl rfl
    · exact hs.of_eq rfl rfl rfl rfl rfl
    · exact hs

/-- After a failure of the daemon, unless it has another fingerprint now. -/
theorem embedPrivately_ends (hw : w.Answers R) (hP : P → w.Reliable dim) {chunk : List String} (e : CallError)
    {s : DaemonEmbedder σ} (hs : CallFails P dim e s) :
    Ends (embedPrivately w chunk e) s (fun rows t => List.Forall₂ R chunk rows ∧ Sound P dim t) (Fails P) := by
  rw [embedPrivately]
  by_cases hfingerprint : isFingerprintRefusal e
  · rw [if_pos hfingerprint]
    refine ⟨id, hs.sound.sent, fun h => ?_⟩
    rw [hs.refusal h] at hfingerprint
    cases hfingerprint
  · rw [if_neg hfingerprint]
    by_cases hcap : isOverCapRefusal e
    · rw [if_pos hcap]
      exact privateEmbed_ends hw hP chunk _ hs.sound
    · rw [if_neg hcap]
      exact (noteFailure_ends e hs.sound).bind fun _ t ht => privateEmbed_ends hw hP chunk _ ht

/-- The vectors of a batch, from the daemon or not. -/
theorem embedChunk_ends (hw : w.Answers R) (hP : P → w.Reliable dim) {chunk : List String}
    (hchunk : RequestWithin chunk) {s : DaemonEmbedder σ} (hs : Sound P dim s) :
    Ends (embedChunk w chunk) s (fun rows t => List.Forall₂ R chunk rows ∧ Sound P dim t) (Fails P) := by
  refine Ends.get ?_
  by_cases hbypass : s.bypassDaemon
  · rw [if_pos hbypass]
    exact privateEmbed_ends hw hP chunk _ hs
  · rw [if_neg hbypass]
    refine Ends.attempt (callLoop_ends hw hP hchunk s.retries 0 none (fun _ => nofun) hs) ?_ ?_
    · rintro result t ⟨⟨hrows, hdims⟩, ht⟩
      refine Ends.modify (Ends.get ?_)
      dsimp only
      split
      · next hne => exact ⟨id, ht.sent, fun h => hne ((hdims h).1.trans (ht.ready h).dim.symm)⟩
      · rcases hwrong : wrongDimension t.dim result.embeddings with _ | ⟨i, values⟩
        · exact ⟨hrows, ht.of_eq rfl rfl rfl rfl rfl⟩
        · refine ⟨id, ht.sent, fun h => ?_⟩
          rw [(ht.ready h).dim, wrongDimension_eq_none (hdims h).2] at hwrong
          cases hwrong
    · intro e t ht
      exact embedPrivately_ends hw hP e ⟨ht.sound.of_eq rfl rfl rfl rfl rfl, ht.refusal⟩

end Calls

section Batches

variable {α σ : Type} {w : World α σ} {R : String → List α → Prop} {texts : List String} {P : Prop} {dim : Nat}

theorem lenAt_texts {i : Nat} {text : String} (h : texts[i]? = some text) :
    lenAt (texts.map byteLen) i = byteLen text := by
  rw [lenAt, List.getElem?_map, h]
  rfl

/-- The lengths at the places of a batch are those of its texts. -/
theorem chunk_lengths {batch : List Nat} {chunk : List String}
    (h : List.Forall₂ (fun i t => texts[i]? = some t) batch chunk) :
    chunk.map byteLen = batch.map (lenAt (texts.map byteLen)) := by
  induction h with
  | nil => rfl
  | cons hi _ ih => rw [List.map_cons, List.map_cons, ih, lenAt_texts hi]

theorem requestWithin_of_places {batch : List Nat} {chunk : List String}
    (h : List.Forall₂ (fun i t => texts[i]? = some t) batch chunk)
    (hwithin : PlacesWithin maxMcpEmbedTextBytes (min daemonCallMaxBytes maxMcpEmbedTotalBytes)
      (min daemonCallMaxTexts maxMcpEmbedTexts) (lenAt (texts.map byteLen)) batch) : RequestWithin chunk := by
  obtain ⟨hcount, htotal, heach⟩ := hwithin
  rw [← chunk_lengths h] at htotal
  rw [h.length_eq] at hcount
  refine ⟨le_trans hcount (min_le_left _ _), le_trans htotal (min_le_left _ _), ?_⟩
  rw [checkEmbedTextsCaps, Bool.and_eq_true, Bool.and_eq_true, decide_eq_true_eq, decide_eq_true_eq, List.all_eq_true]
  refine ⟨⟨le_trans hcount (min_le_right _ _), fun text htext => decide_eq_true ?_⟩, le_trans htotal (min_le_right _ _)⟩
  have hlen : byteLen text ∈ batch.map (lenAt (texts.map byteLen)) :=
    chunk_lengths h ▸ List.mem_map_of_mem htext
  obtain ⟨i, hi, heq⟩ := List.mem_map.mp hlen
  exact heq ▸ heach i hi

theorem embedInto_ends (hw : w.Answers R) (hP : P → w.Reliable dim) {batch : List Nat} (hbatch : ∀ i ∈ batch, i < texts.length)
    (hwithin : PlacesWithin maxMcpEmbedTextBytes (min daemonCallMaxBytes maxMcpEmbedTotalBytes)
      (min daemonCallMaxTexts maxMcpEmbedTexts) (lenAt (texts.map byteLen)) batch)
    {out : List (Option (List α))} {done : Nat → Prop} (hplaced : Placed R texts done out) {s : DaemonEmbedder σ}
    (hs : Sound P dim s) :
    Ends (embedInto w texts out batch) s
      (fun out' t => Placed R texts (fun i => done i ∨ i ∈ batch) out' ∧ Sound P dim t) (Fails P) := by
  obtain ⟨chunk, hchunk, hplaces⟩ := gather_some hbatch
  refine Ends.orThrow hchunk ((embedChunk_ends hw hP (requestWithin_of_places hplaces hwithin) hs).bind ?_)
  rintro vectors t ⟨hvectors, ht⟩
  obtain ⟨out', hrun, hplaced'⟩ := hplaced.scatter hplaces hvectors
  rw [hrun]
  exact ⟨hplaced', ht⟩

theorem embedOversize_ends (hw : w.Answers R) (hP : P → w.Reliable dim) {oversize : List Nat} (hbatch : ∀ i ∈ oversize, i < texts.length)
    {out : List (Option (List α))} {done : Nat → Prop} (hplaced : Placed R texts done out) {s : DaemonEmbedder σ}
    (hs : Sound P dim s) :
    Ends (embedOversize w texts out oversize) s
      (fun out' t => Placed R texts (fun i => done i ∨ i ∈ oversize) out' ∧ Sound P dim t) (Fails P) := by
  rw [embedOversize]
  split
  · next hnil =>
    refine ⟨hplaced.mono fun i hi => hi.resolve_right ?_, hs⟩
    rw [List.isEmpty_iff.mp hnil]
    exact List.not_mem_nil
  · obtain ⟨chunk, hchunk, hplaces⟩ := gather_some hbatch
    refine Ends.orThrow hchunk ((privateEmbed_ends hw hP chunk _ hs).bind ?_)
    rintro vectors t ⟨hvectors, ht⟩
    obtain ⟨out', hrun, hplaced'⟩ := hplaced.scatter hplaces hvectors
    rw [hrun]
    exact ⟨hplaced', ht⟩

theorem embedBatch_ends (hw : w.Answers R) (hP : P → w.Reliable dim) (texts : List String) {s : DaemonEmbedder σ} (hs : Sound P dim s) :
    Ends (embedBatch w texts) s (fun vectors t => List.Forall₂ R texts vectors ∧ Sound P dim t) (Fails P) := by
  rw [embedBatch]
  refine Ends.get ?_
  by_cases hnone : s.expectedFingerprint.isNone = true
  · rw [if_pos hnone]
    refine ⟨id, hs.sent, fun h => ?_⟩
    simpa [Option.isNone_iff_eq_none.mp hnone] using (hs.ready h).fingerprint
  rw [if_neg hnone]
  rcases hplan : planEmbedBatches (texts.map byteLen) maxMcpEmbedTextBytes
    (min daemonCallMaxBytes maxMcpEmbedTotalBytes) (min daemonCallMaxTexts maxMcpEmbedTexts) with ⟨batches, oversize⟩
  obtain ⟨hperm, hwithin⟩ := planEmbedBatches_within (by decide) (texts.map byteLen) hplan
  rw [List.length_map] at hperm
  have hin : ∀ i ∈ batches.flatten ++ oversize, i < texts.length := fun i hi =>
    List.mem_range.mp (hperm.subset hi)
  refine Ends.bind (Ends.fold
    (I := fun done out t => Placed R texts (fun i => i ∈ done.flatten) out ∧ Sound P dim t) ?_ ?_) ?_
  · exact ⟨(placed_empty R texts).mono fun i hi => List.not_mem_nil hi, hs⟩
  · rintro done batch rest out t hsplit ⟨hplaced, ht⟩
    have hbatch : batch ∈ batches := hsplit ▸ List.mem_append_right _ List.mem_cons_self
    have hplaces : ∀ i ∈ batch, i < texts.length := fun i hi =>
      hin i (List.mem_append_left _ (List.mem_flatten.mpr ⟨batch, hbatch, hi⟩))
    refine (embedInto_ends hw hP hplaces (hwithin batch hbatch) hplaced ht).mono ?_ fun _ _ h => h
    rintro out' u ⟨hplaced', hu⟩
    exact ⟨hplaced'.mono fun i hi => by simpa using hi, hu⟩
  · rintro out t ⟨hplaced, ht⟩
    refine (embedOversize_ends hw hP (fun i hi => hin i (List.mem_append_right _ hi)) hplaced ht).bind ?_
    rintro out' u ⟨hplaced', hu⟩
    obtain ⟨vectors, hcollect, hall⟩ := hplaced'.collect fun i hi =>
      List.mem_append.mp (hperm.symm.subset (List.mem_range.mpr hi))
    rw [hcollect]
    exact ⟨hall, hu⟩

/-- The vectors stand at the places of their texts, and every request was within the caps. With a reliable private
embedder to fall back to nothing fails. -/
theorem embedBatch_placed (hw : w.Answers R) (texts : List String) {s : DaemonEmbedder σ} (hsent : s.sent = []) :
    Ends (embedBatch w texts) s (fun rows t => List.Forall₂ R texts rows ∧ SentWithin t)
      (Fails (w.Reliable s.dim ∧ s.Ready s.dim)) := by
  have hs : Sound (w.Reliable s.dim ∧ s.Ready s.dim) s.dim s := ⟨by simp [SentWithin, hsent], fun h => h.2⟩
  exact (embedBatch_ends hw And.left texts hs).mono (fun rows t h => ⟨h.1, h.2.sent⟩) fun _ _ h => h

end Batches

end DaemonEmbed
end Cli
end CodeSage
