import Mathlib.Algebra.Order.Ring.Int
import CodeSage.Embed.BatchPlan
import Mathlib.Data.List.Infix

/-!
# CodeSage.Cli.DaemonEmbed

Embedding through the running daemon (`crates/cli/src/daemon_embed.rs`): batches of the texts in order, each one sent to
the daemon up to three times and then embedded privately, oversized texts privately at the end.

The daemon, the clock and the private embedder answer from a state of their own, as they like. `sent` records the texts of
each request. An error is its whole printed chain and what the first `TransientFailure` in it says; logging is left out.
-/

namespace CodeSage
namespace Cli
namespace DaemonEmbed

open Lib Batching Client Embed

section Caps

def maxMcpEmbedTexts : Nat := 4096

def defaultChunkSize : Nat := 1500

def maxMcpEmbedTextBytes : Nat := 32 * defaultChunkSize

def maxMcpEmbedTotalBytes : Nat := maxMcpEmbedTexts * 4 * defaultChunkSize

def daemonCallMaxTexts : Nat := 256

def daemonCallMaxBytes : Nat := 2 * 1024 * 1024

def embedTextsOverCap : String := "embed_texts: over cap:"

def embedTextsFingerprintMismatch : String := "embed_texts: fingerprint mismatch:"

/-- What the daemon asks of a request, `check_embed_texts_caps`. -/
def checkEmbedTextsCaps (texts : List String) : Bool :=
  decide (texts.length ≤ maxMcpEmbedTexts) && texts.all (fun text => byteLen text ≤ maxMcpEmbedTextBytes) &&
    decide ((texts.map byteLen).sum ≤ maxMcpEmbedTotalBytes)

end Caps

section Plan

structure EmbedPlan where
  batches : List (List Nat) := []
  oversize : List Nat := []
  current : List Nat := []
  currentBytes : Nat := 0
deriving DecidableEq, Repr

/-- One turn of the loop over the lengths. -/
def EmbedPlan.add (maxText maxTotal maxCount : Nat) (plan : EmbedPlan) (entry : Nat × Nat) : EmbedPlan :=
  let (len, i) := entry
  if maxText < len then { plan with oversize := plan.oversize ++ [i] }
  else
    let plan :=
      if !plan.current.isEmpty && (decide (maxCount ≤ plan.current.length) || decide (maxTotal < plan.currentBytes + len))
      then { plan with batches := plan.batches ++ [plan.current], current := [], currentBytes := 0 }
      else plan
    { plan with current := plan.current ++ [i], currentBytes := plan.currentBytes + len }

def planEmbedBatches (lens : List Nat) (maxText maxTotal maxCount : Nat) : List (List Nat) × List Nat :=
  let plan := lens.zipIdx.foldl (EmbedPlan.add maxText maxTotal maxCount) {}
  (if plan.current.isEmpty then plan.batches else plan.batches ++ [plan.current], plan.oversize)

end Plan

section Calls

inductive TransientKind where
  | timeout
  | busy
  | unavailable
deriving DecidableEq, Repr

structure TransientFailure where
  kind : TransientKind
  reopenSession : Bool
deriving DecidableEq, Repr

structure CallError where
  text : String
  transient : Option TransientFailure
deriving DecidableEq, Repr

def isOverCapRefusal (err : CallError) : Bool := decide (embedTextsOverCap.toList <:+: err.text.toList)

def isFingerprintRefusal (err : CallError) : Bool :=
  decide (embedTextsFingerprintMismatch.toList <:+: err.text.toList)

variable {α σ : Type}

structure EmbedTextsResult (α : Type) where
  dim : Nat
  embeddings : List (List α)

/-- What is outside: the answer to a request, up to its parsed result; a new session; whether little time is left after
one was opened, and for retry `n` after its backoff; the private embedder, loaded and bound to a fingerprint, and run. -/
structure World (α σ : Type) where
  embedTexts : List String → σ → Except CallError (EmbedTextsResult α) × σ
  openSession : σ → Except String Unit × σ
  shortAfterReopen : σ → Bool × σ
  shortForRetry : Nat → σ → Bool × σ
  loadPrivate : String → σ → Except String Unit × σ
  privateEmbed : List String → σ → Except String (List (List α)) × σ

structure DaemonEmbedder (σ : Type) where
  dim : Nat
  retries : Nat
  expectedFingerprint : Option String
  privateInit : Bool
  privateLoaded : Bool
  sessionLost : Bool
  busyBatches : Nat
  bypassDaemon : Bool
  world : σ
  sent : List (List String)

/-- An answer of the outside. -/
def ask {ε β : Type} (answer : σ → β × σ) : Client (DaemonEmbedder σ) ε β := fun s =>
  (.ok (answer s.world).1, { s with world := (answer s.world).2 })

variable (w : World α σ)

/-- Send one request. -/
def call (texts : List String) : Client (DaemonEmbedder σ) CallError (EmbedTextsResult α) := do
  modify fun s => { s with sent := s.sent ++ [texts] }
  match ← ask (w.embedTexts texts) with
  | .error e => throw e
  | .ok parsed =>
    if parsed.embeddings.length ≠ texts.length then
      throw ⟨"daemon returned " ++ toString parsed.embeddings.length ++ " embeddings for " ++
        toString texts.length ++ " texts", none⟩
    return parsed

def reconnectError (lastError : Option CallError) (reconnect : String) : CallError where
  text := (match lastError with
    | some last => last.text ++ ": "
    | none => "") ++ "reconnecting to the daemon failed: " ++ reconnect ++ ": daemon session could not be reopened"
  transient := some ⟨(lastError.bind fun e => e.transient.map TransientFailure.kind).getD .unavailable, true⟩

/-- Open a lost session again. The error that a retry is for comes back when little time is left then. -/
def restoreSession (lastError : Option CallError) : Client (DaemonEmbedder σ) CallError Unit := do
  if (← get).sessionLost then
    match ← ask w.openSession with
    | .error reconnect => throw (reconnectError lastError reconnect)
    | .ok () =>
      modify fun s => { s with sessionLost := false }
      match lastError with
      | none => return ()
      | some last => if ← ask w.shortAfterReopen then throw last

/-- The loop, with the number of retries left and of retries made. -/
def callLoop (texts : List String) :
    Nat → Nat → Option CallError → Client (DaemonEmbedder σ) CallError (EmbedTextsResult α)
  | left, retry, lastError => do
    restoreSession w lastError
    match ← attempt (call w texts) with
    | .ok result => return result
    | .error error =>
      match error.transient with
      | none => throw error
      | some transient =>
        modify fun s => { s with sessionLost := s.sessionLost || transient.reopenSession }
        match left with
        | 0 => throw error
        | left + 1 =>
          if ← ask (w.shortForRetry (retry + 1)) then throw error
          callLoop texts left (retry + 1) (some error)

def callWithRetries (texts : List String) : Client (DaemonEmbedder σ) CallError (EmbedTextsResult α) := do
  callLoop w texts (← get).retries 0 none

end Calls

section Batch

inductive EmbedError where
  | noFingerprint
  | dimensionChanged (before now : Nat)
  | daemonDimension (i values expected : Nat)
  | fingerprintMoved (e : CallError)
  | noPrivate (why : String)
  | unbound
  | loadPrivate (text : String)
  | privateFailed (text : String)
  | privateCount (vectors texts : Nat)
  | privateDimension (i values expected : Nat)
  | panicked
deriving DecidableEq, Repr

/-- The first vector of another dimension. -/
def wrongDimension {α : Type} (dim : Nat) (embeddings : List (List α)) : Option (Nat × Nat) :=
  (embeddings.zipIdx.find? fun e => e.1.length ≠ dim).map fun e => (e.2, e.1.length)

variable {α σ : Type} (w : World α σ)

/-- The private embedder, loaded at its first use. -/
def loadPrivate (why : String) : Client (DaemonEmbedder σ) EmbedError Unit := do
  if !(← get).privateLoaded then
    if !(← get).privateInit then throw (.noPrivate why)
    modify fun s => { s with privateInit := false }
    match (← get).expectedFingerprint with
    | none => throw .unbound
    | some expected =>
      match ← ask (w.loadPrivate expected) with
      | .error text => throw (.loadPrivate text)
      | .ok () => modify fun s => { s with privateLoaded := true }

def privateEmbed (texts : List String) (why : String) : Client (DaemonEmbedder σ) EmbedError (List (List α)) := do
  loadPrivate w why
  match ← ask (w.privateEmbed texts) with
  | .error text => throw (.privateFailed text)
  | .ok out =>
    if out.length ≠ texts.length then throw (.privateCount out.length texts.length)
    let dim := (← get).dim
    match wrongDimension dim out with
    | some (i, values) => throw (.privateDimension i values dim)
    | none => return out

def busyBatchesBeforeBypass : Nat := 2

/-- After a failed batch: whether the daemon is left alone from here on. -/
def noteFailure (e : CallError) : Client (DaemonEmbedder σ) EmbedError Unit :=
  match e.transient.map TransientFailure.kind with
  | some .timeout => modify fun s => { s with bypassDaemon := true }
  | some .busy => modify fun s =>
      let busyBatches := s.busyBatches + 1
      { s with busyBatches, bypassDaemon := s.bypassDaemon || decide (busyBatchesBeforeBypass ≤ busyBatches) }
  | some .unavailable | none => pure ()

/-- A batch that the daemon did not embed, unless it may not be embedded by another model. -/
def embedPrivately (chunk : List String) (e : CallError) : Client (DaemonEmbedder σ) EmbedError (List (List α)) :=
  if isFingerprintRefusal e then throw (.fingerprintMoved e)
  else if isOverCapRefusal e then privateEmbed w chunk ("daemon refused a batch as over cap (" ++ e.text ++ ")")
  else do
    noteFailure e
    privateEmbed w chunk ("daemon embed_texts failed for a batch of " ++ toString chunk.length ++ " text(s) (" ++
      e.text ++ ")")

/-- The vectors of one batch. -/
def embedChunk (chunk : List String) : Client (DaemonEmbedder σ) EmbedError (List (List α)) := do
  if (← get).bypassDaemon then
    privateEmbed w chunk "the daemon kept timing out or stayed saturated earlier this pass"
  else
    match ← attempt (callWithRetries w chunk) with
    | .ok result =>
      modify fun s => { s with busyBatches := 0 }
      let dim := (← get).dim
      if result.dim ≠ dim then throw (.dimensionChanged dim result.dim)
      match wrongDimension dim result.embeddings with
      | some (i, values) => throw (.daemonDimension i values dim)
      | none => return result.embeddings
    | .error e =>
      modify fun s =>
        { s with busyBatches := if e.transient.map TransientFailure.kind = some .busy then s.busyBatches else 0 }
      embedPrivately w chunk e

/-- One turn of the loop over the batches. -/
def embedInto (texts : List String) (out : List (Option (List α))) (batch : List Nat) :
    Client (DaemonEmbedder σ) EmbedError (List (Option (List α))) := do
  let chunk ← orThrow .panicked (gather texts batch)
  let embeddings ← embedChunk w chunk
  orThrow .panicked (scatter out batch embeddings)

/-- The texts over the cap of the daemon. -/
def embedOversize (texts : List String) (out : List (Option (List α))) (oversize : List Nat) :
    Client (DaemonEmbedder σ) EmbedError (List (Option (List α))) := do
  if oversize.isEmpty then return out
  let chunk ← orThrow .panicked (gather texts oversize)
  let embeddings ← privateEmbed w chunk (toString chunk.length ++ " text(s) exceed the daemon's per-text cap of " ++
    toString maxMcpEmbedTextBytes ++ " bytes")
  orThrow .panicked (scatter out oversize embeddings)

def embedBatch (texts : List String) : Client (DaemonEmbedder σ) EmbedError (List (List α)) := do
  if (← get).expectedFingerprint.isNone then throw .noFingerprint
  let (batches, oversize) := planEmbedBatches (texts.map byteLen) maxMcpEmbedTextBytes
    (min daemonCallMaxBytes maxMcpEmbedTotalBytes) (min daemonCallMaxTexts maxMcpEmbedTexts)
  let out ← Client.fold (embedInto w texts) (List.replicate texts.length none) batches
  let out ← embedOversize w texts out oversize
  orThrow .panicked (collect out)

end Batch

end DaemonEmbed
end Cli
end CodeSage
