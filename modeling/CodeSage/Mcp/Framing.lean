import Mathlib.Algebra.Order.Ring.Int
import CodeSage.Lib.Checked
import Mathlib.Data.List.Basic

/-!
# CodeSage.Mcp.Framing

The `FrameReader` of `crates/cli/src/mcp/framing.rs`: a reader that hands on newline-delimited
frames only when they are complete and within a byte limit.

What the wrapped reader does is a script: every poll of it takes the next item, which is `Pending`,
some bytes (no bytes is the end of the stream, as is the end of the script) or an error. The
`BufReader` in between keeps what was read and not consumed. `none` is a panic; allocation itself
always succeeds.
-/

namespace CodeSage
namespace Mcp
namespace Framing

open Lib

abbrev Bytes := List UInt8

inductive ErrorKind where
  | invalidData
  | other (code : Nat)
  deriving DecidableEq, Repr

structure IoError where
  kind : ErrorKind
  message : String
  deriving DecidableEq, Repr

inductive Poll (α : Type) where
  | pending
  | ready (a : α)
  deriving DecidableEq, Repr

def maxFrameBytes : Nat := 16 * 1024 * 1024

def oversizedFrame : IoError where
  kind := .invalidData
  message := s!"MCP frame exceeds {maxFrameBytes} bytes; closing connection"

inductive Read where
  | pending
  | data (bytes : Bytes)
  | error (e : IoError)
  deriving DecidableEq, Repr

structure BufReader where
  buffer : Bytes := []
  script : List Read
  deriving Repr

namespace BufReader

def pollFillBuf (b : BufReader) : Poll (Except IoError Bytes) × BufReader :=
  match b.buffer with
  | _ :: _ => (.ready (.ok b.buffer), b)
  | [] =>
    match b.script with
    | [] => (.ready (.ok []), b)
    | .pending :: rest => (.pending, { b with script := rest })
    | .data bytes :: rest => (.ready (.ok bytes), { buffer := bytes, script := rest })
    | .error e :: rest => (.ready (.error e), { b with script := rest })

def consume (b : BufReader) (n : Nat) : BufReader := { b with buffer := b.buffer.drop n }

/-- Bytes and script items still to come. -/
def size (b : BufReader) : Nat :=
  b.buffer.length + (b.script.map fun
    | .data bytes => bytes.length + 1
    | _ => 1).sum

end BufReader

/-- A `Vec<u8>` with its capacity. -/
structure Frame where
  bytes : Bytes := []
  capacity : Nat := 0
  deriving Repr

namespace Frame

def clear (f : Frame) : Frame := { f with bytes := [] }

def reserveExact (f : Frame) (additional : Nat) : Frame :=
  if f.capacity < f.bytes.length + additional then
    { f with capacity := f.bytes.length + additional }
  else f

/-- Grows to twice the capacity, and to 8 bytes at least, when the new bytes do not fit. -/
def extendFromSlice (f : Frame) (chunk : Bytes) : Frame where
  bytes := f.bytes ++ chunk
  capacity :=
    if f.capacity < f.bytes.length + chunk.length then
      max (max (2 * f.capacity) (f.bytes.length + chunk.length)) 8
    else f.capacity

end Frame

structure FrameReader where
  inner : BufReader
  frame : Frame := {}
  offset : Nat := 0
  ready : Bool := false
  ended : Bool := false
  limit : Nat
  deriving Repr

/-- `b'\n'` -/
def lf : UInt8 := 10

namespace FrameReader

def withLimit (script : List Read) (limit : Nat) : FrameReader := { inner := { script }, limit }

def new (script : List Read) : FrameReader := withLimit script maxFrameBytes

/-- How one pass through the body of the `while` loop ends. -/
inductive Pass where
  | again (r : FrameReader)
  | leave (r : FrameReader)
  | pending (r : FrameReader)
  | failed (e : IoError) (r : FrameReader)

/-- The part of the body that reserves room for `needed` bytes. -/
def grow (r : FrameReader) (needed : Nat) : Option Frame := do
  if needed > r.frame.capacity then
    let top ← usizeAdd r.limit 1
    let capacity := min (max needed (usizeSaturatingMul r.frame.capacity 2)) top
    let additional ← usizeSub capacity r.frame.bytes.length
    return r.frame.reserveExact additional
  else return r.frame

/-- The body of the loop once `poll_fill_buf` has returned some bytes. -/
def accept (r : FrameReader) (available : Bytes) : Option Pass := do
  let newline := available.findIdx? (· == lf)
  let payload := newline.getD available.length
  let room ← usizeSub r.limit r.frame.bytes.length
  if payload > room then
    return .failed oversizedFrame { r with ended := true, frame := r.frame.clear }
  else
    let consumed ← usizeAdd payload (if newline.isSome then 1 else 0)
    let needed ← usizeAdd r.frame.bytes.length consumed
    let frame ← r.grow needed
    let chunk ← slice available 0 consumed
    return .again { r with
      frame := frame.extendFromSlice chunk
      inner := r.inner.consume consumed
      ready := newline.isSome }

def pass (r : FrameReader) : Option Pass :=
  match r.inner.pollFillBuf with
  | (.pending, inner) => some (.pending { r with inner })
  | (.ready (.error e), inner) =>
    some (.failed e { r with inner, ended := true, frame := r.frame.clear })
  | (.ready (.ok []), inner) =>
    some (.leave { r with inner, ended := true, ready := !r.frame.bytes.isEmpty })
  | (.ready (.ok (b :: bs)), inner) => accept { r with inner } (b :: bs)

theorem accept_again {r r' : FrameReader} {available : Bytes} (hne : available ≠ [])
    (h : r.accept available = some (.again r')) :
    ∃ consumed, 0 < consumed ∧ r'.inner = r.inner.consume consumed := by
  simp only [accept, Option.bind_eq_bind, Option.bind_eq_some_iff] at h
  obtain ⟨room, _, h⟩ := h
  split at h
  · cases h
  obtain ⟨consumed, hconsumed, needed, _, frame, _, chunk, _, h⟩ := by
    simpa only [Option.bind_eq_some_iff] using h
  refine ⟨consumed, ?_, by cases h; rfl⟩
  have hconsumed := usizeAdd_some hconsumed
  have hlen : 0 < available.length := List.length_pos_iff.mpr hne
  cases hn : available.findIdx? (· == lf) with
  | none =>
    rw [hn] at hconsumed
    simp only [Option.getD_none] at hconsumed
    omega
  | some i =>
    rw [hn] at hconsumed
    simp only [Option.isSome_some, if_true] at hconsumed
    omega

theorem size_consume (b : BufReader) {n : Nat} (hn : 0 < n) (hb : b.buffer ≠ []) :
    (b.consume n).size < b.size := by
  have hlen : 0 < b.buffer.length := List.length_pos_iff.mpr hb
  simp only [BufReader.consume, BufReader.size, List.length_drop]
  omega

theorem pass_again {r r' : FrameReader} (h : r.pass = some (.again r')) :
    r'.inner.size < r.inner.size := by
  obtain ⟨⟨buffer, script⟩, frame, offset, ready, ended, limit⟩ := r
  cases buffer with
  | cons b bs =>
    simp only [pass, BufReader.pollFillBuf] at h
    obtain ⟨consumed, hpos, hinner⟩ := accept_again (by simp) h
    rw [hinner]
    exact size_consume _ hpos (by simp)
  | nil =>
    cases script with
    | nil => simp only [pass, BufReader.pollFillBuf] at h; cases h
    | cons item rest =>
      cases item with
      | pending => simp only [pass, BufReader.pollFillBuf] at h; cases h
      | error e => simp only [pass, BufReader.pollFillBuf] at h; cases h
      | data bytes =>
        cases bytes with
        | nil => simp only [pass, BufReader.pollFillBuf] at h; cases h
        | cons b bs =>
          simp only [pass, BufReader.pollFillBuf] at h
          obtain ⟨consumed, hpos, hinner⟩ := accept_again (by simp) h
          rw [hinner]
          refine Nat.lt_trans (size_consume _ hpos (by simp)) ?_
          simp only [BufReader.size, List.map_cons, List.sum_cons, List.length_nil]
          omega

/-- The `while` loop: `leave` when its condition fails or it breaks, else the early return. -/
def fill (r : FrameReader) : Option Pass :=
  if r.ready || r.ended then some (.leave r)
  else
    match _h : r.pass with
    | some (.again r') => fill r'
    | p => p
termination_by r.inner.size
decreasing_by exact pass_again _h

/-- What follows the loop: hand out as much of a complete frame as fits. -/
def deliver (r : FrameReader) (remaining : Nat) : Option (Bytes × FrameReader) := do
  if r.ready then
    let left ← usizeSub r.frame.bytes.length r.offset
    let count := min remaining left
    let stop ← usizeAdd r.offset count
    let chunk ← slice r.frame.bytes r.offset stop
    if stop = r.frame.bytes.length then
      return (chunk, { r with offset := 0, frame := r.frame.clear, ready := false })
    else return (chunk, { r with offset := stop })
  else return ([], r)

/-- `poll_read` with room for `remaining` bytes: the result with the bytes put into the buffer. -/
def pollRead (r : FrameReader) (remaining : Nat) :
    Option (Poll (Except IoError Bytes) × FrameReader) :=
  if remaining = 0 then some (.ready (.ok []), r)
  else
    match r.fill with
    | some (.leave r') => (r'.deliver remaining).map fun (chunk, r'') => (.ready (.ok chunk), r'')
    | some (.pending r') => some (.pending, r')
    | some (.failed e r') => some (.ready (.error e), r')
    | _ => none

/-- A caller that polls with these buffer sizes, one after the other. -/
def polls (r : FrameReader) : List Nat → Option (List (Poll (Except IoError Bytes)) × FrameReader)
  | [] => some ([], r)
  | n :: ns => do
    let (out, r) ← r.pollRead n
    let (outs, r) ← r.polls ns
    return (out :: outs, r)

end FrameReader

end Framing
end Mcp
end CodeSage
