import CodeSage.Mcp.Framing

/-!
# CodeSage.Mcp.FramingCorrect

`FrameReader` hands on exactly the frames that are complete and within the limit.

`accepted` reads the stream byte by byte and says what a reader with this limit should deliver,
and which error it should end with. `remaining` is what `accepted` leaves to do from a state of the
reader. One poll (`pollRead_spec`) delivers a first part of what remains, reports the error when
nothing else remains, or waits; the properties of whole sequences of polls follow by induction.
-/

namespace CodeSage
namespace Mcp
namespace Framing

open Lib

/-- The bytes the wrapped reader produces before it ends, and the error it ends with. -/
def stream : List Read → Bytes × Option IoError
  | [] => ([], none)
  | .pending :: rest => stream rest
  | .data [] :: _ => ([], none)
  | .data (b :: bs) :: rest => (b :: bs ++ (stream rest).1, (stream rest).2)
  | .error e :: _ => ([], some e)

/-- What to deliver of a frame begun with `frame` and the bytes that follow, and the last error. -/
def accepted (limit : Nat) (ending : Option IoError) : Bytes → Bytes → Bytes × Option IoError
  | frame, [] =>
    match ending with
    | none => (frame, none)
    | some e => ([], some e)
  | frame, b :: bs =>
    if b = lf then
      (frame ++ lf :: (accepted limit ending [] bs).1, (accepted limit ending [] bs).2)
    else if frame.length < limit then accepted limit ending (frame ++ [b]) bs
    else ([], some oversizedFrame)

section Accepted

variable {limit : Nat} {ending : Option IoError}

theorem accepted_append (xs : Bytes) : ∀ (frame bs : Bytes), lf ∉ xs →
    frame.length + xs.length ≤ limit →
    accepted limit ending frame (xs ++ bs) = accepted limit ending (frame ++ xs) bs := by
  induction xs with
  | nil => intro frame bs _ _; simp
  | cons x xs ih =>
    intro frame bs hlf hlen
    simp only [List.mem_cons, not_or] at hlf
    simp only [List.length_cons] at hlen
    rw [List.cons_append, accepted, if_neg (Ne.symm hlf.1), if_pos (by omega),
      ih _ _ hlf.2 (by simp only [List.length_append, List.length_singleton]; omega)]
    simp

theorem accepted_lf (frame xs bs : Bytes) (hlf : lf ∉ xs) (hlen : frame.length + xs.length ≤ limit) :
    accepted limit ending frame (xs ++ lf :: bs) =
      (frame ++ xs ++ lf :: (accepted limit ending [] bs).1, (accepted limit ending [] bs).2) := by
  rw [accepted_append xs frame _ hlf hlen, accepted, if_pos rfl]

theorem accepted_oversized (xs : Bytes) : ∀ (frame bs : Bytes), lf ∉ xs →
    frame.length ≤ limit → limit < frame.length + xs.length →
    accepted limit ending frame (xs ++ bs) = ([], some oversizedFrame) := by
  induction xs with
  | nil => intro frame bs _ hle hlt; simp only [List.length_nil] at hlt; omega
  | cons x xs ih =>
    intro frame bs hlf hle hlt
    simp only [List.mem_cons, not_or] at hlf
    simp only [List.length_cons] at hlt
    rw [List.cons_append, accepted, if_neg (Ne.symm hlf.1)]
    split
    · rw [ih _ _ hlf.2]
      · simp only [List.length_append, List.length_singleton]; omega
      · simp only [List.length_append, List.length_singleton]; omega
    · rfl

end Accepted

namespace FrameReader

/-- What the reader has not consumed of the stream. -/
def unread (r : FrameReader) : Bytes := r.inner.buffer ++ (stream r.inner.script).1

def ending (r : FrameReader) : Option IoError := (stream r.inner.script).2

/-- What is left to deliver, and the error that is left to report. -/
def remaining (r : FrameReader) : Bytes × Option IoError :=
  if r.ready then
    if r.ended then (r.frame.bytes.drop r.offset, none)
    else (r.frame.bytes.drop r.offset ++ (accepted r.limit r.ending [] r.unread).1,
      (accepted r.limit r.ending [] r.unread).2)
  else if r.ended then ([], none)
  else accepted r.limit r.ending r.frame.bytes r.unread

structure Ok (r : FrameReader) : Prop where
  limit_lt : r.limit < usizeMax
  capacity_le : r.frame.capacity ≤ r.limit + 1
  waiting : r.ready = false → r.offset = 0 ∧ lf ∉ r.frame.bytes ∧ r.frame.bytes.length ≤ r.limit
  cleared : r.ready = false → r.ended = true → r.frame.bytes = []
  complete : r.ready = true → r.offset < r.frame.bytes.length ∧ r.frame.bytes.length ≤ r.limit + 1

section Body

variable {r : FrameReader}

/-- Room is made for what is needed, within the limit, and then the bytes fit. -/
theorem grow_spec (h : r.Ok) (needed : Nat) (hle : needed ≤ r.limit + 1)
    (hlen : r.frame.bytes.length ≤ needed) :
    ∃ f, r.grow needed = some f ∧ f.bytes = r.frame.bytes ∧ needed ≤ f.capacity ∧
      f.capacity ≤ r.limit + 1 := by
  have hlimit := h.limit_lt
  have hcap := h.capacity_le
  simp only [grow]
  split
  · rename_i hgt
    have hmin : needed ≤ min (max needed (usizeSaturatingMul r.frame.capacity 2)) (r.limit + 1) :=
      Nat.le_min.mpr ⟨Nat.le_max_left _ _, hle⟩
    have hmin' : min (max needed (usizeSaturatingMul r.frame.capacity 2)) (r.limit + 1) ≤
        r.limit + 1 := Nat.min_le_right _ _
    rw [usizeAdd_eq (by omega)]
    simp only [Option.bind_eq_bind, Option.bind_some]
    rw [usizeSub_eq (by omega)]
    simp only [Option.bind_some]
    refine ⟨_, rfl, ?_, ?_, ?_⟩
    · simp only [Frame.reserveExact]
      split <;> rfl
    · simp only [Frame.reserveExact]
      split
      · simp only; omega
      · omega
    · simp only [Frame.reserveExact]
      split
      · simp only; omega
      · omega
  · exact ⟨r.frame, rfl, rfl, by omega, hcap⟩

/-- Accepting bytes that contain no newline, or a first newline after `xs`. -/
theorem accept_eq (h : r.Ok) {available : Bytes} {newline : Option Nat}
    (hn : available.findIdx? (· == lf) = newline) (consumed : Nat)
    (hc : consumed = newline.getD available.length + if newline.isSome then 1 else 0)
    (hav : consumed ≤ available.length)
    (hfit : r.frame.bytes.length + newline.getD available.length ≤ r.limit) :
    ∃ capacity, capacity ≤ r.limit + 1 ∧ r.accept available = some (.again { r with
      frame := ⟨r.frame.bytes ++ available.take consumed, capacity⟩
      inner := r.inner.consume consumed
      ready := newline.isSome }) := by
  have hlimit := h.limit_lt
  have hone : (if newline.isSome then 1 else 0) ≤ 1 := by split <;> omega
  obtain ⟨f, hf, hbytes, hroom, hcap⟩ := grow_spec h (r.frame.bytes.length + consumed)
    (by omega) (by omega)
  refine ⟨f.capacity, hcap, ?_⟩
  simp only [accept, hn]
  rw [usizeSub_eq (by omega)]
  simp only [Option.bind_eq_bind, Option.bind_some]
  rw [if_neg (by omega), usizeAdd_eq (by omega), ← hc]
  simp only [Option.bind_some]
  rw [usizeAdd_eq (by omega)]
  simp only [Option.bind_some, hf]
  rw [slice_eq (Nat.zero_le _) hav]
  simp only [Option.bind_some, List.drop_zero]
  have hext : f.extendFromSlice (available.take consumed) =
      ⟨r.frame.bytes ++ available.take consumed, f.capacity⟩ := by
    simp only [Frame.extendFromSlice, hbytes, List.length_take, Nat.min_eq_left hav]
    rw [if_neg (by omega)]
  rw [hext]
  rfl

theorem accept_failed (h : r.Ok) (hready : r.ready = false) {available : Bytes}
    (hover : r.limit < r.frame.bytes.length +
      (available.findIdx? (· == lf)).getD available.length) :
    r.accept available = some (.failed oversizedFrame
      { r with ended := true, frame := r.frame.clear }) := by
  have hlen := (h.waiting hready).2.2
  simp only [accept]
  rw [usizeSub_eq hlen]
  simp only [Option.bind_eq_bind, Option.bind_some]
  rw [if_pos (by omega)]
  rfl

theorem findIdx_lf {available : Bytes} : ∀ {i : Nat}, available.findIdx? (· == lf) = some i →
    ∃ xs post, available = xs ++ lf :: post ∧ xs.length = i ∧ lf ∉ xs := by
  induction available with
  | nil => intro i h; cases h
  | cons b bs ih =>
    intro i h
    rw [List.findIdx?_cons] at h
    split at h
    · rename_i hb
      cases h
      have hb : b = lf := by simpa using hb
      exact ⟨[], bs, by rw [hb]; rfl, rfl, by simp⟩
    · rename_i hb
      obtain ⟨j, hj, rfl⟩ := Option.map_eq_some_iff.mp h
      obtain ⟨xs, post, rfl, hlen, hlf⟩ := ih hj
      have hb : lf ≠ b := by rintro rfl; simp at hb
      exact ⟨b :: xs, post, rfl, by simp [hlen], by simp [hb, hlf]⟩

theorem findIdx_no_lf {available : Bytes} (h : available.findIdx? (· == lf) = none) :
    lf ∉ available := by
  intro hm
  have := List.findIdx?_eq_none_iff.mp h lf hm
  simp at this

/-- What a pass of the loop leads to: it goes on with the same bytes remaining, or it meets the
error that is all that remains. -/
inductive Passed (r : FrameReader) : Pass → Prop where
  | again {r' : FrameReader} (hok : r'.Ok) (hrem : r'.remaining = r.remaining)
      (hlimit : r'.limit = r.limit) (hscript : r'.inner.script.length ≤ r.inner.script.length) :
      Passed r (.again r')
  | leave {r' : FrameReader} (hok : r'.Ok) (hrem : r'.remaining = r.remaining)
      (hlimit : r'.limit = r.limit) (hscript : r'.inner.script.length ≤ r.inner.script.length)
      (hend : r'.ready = true ∨ r'.ended = true) : Passed r (.leave r')
  | pending {r' : FrameReader} (hok : r'.Ok) (hrem : r'.remaining = r.remaining)
      (hlimit : r'.limit = r.limit) (hscript : r'.inner.script.length < r.inner.script.length) :
      Passed r (.pending r')
  | failed {e : IoError} {r' : FrameReader} (hok : r'.Ok) (hrem : r.remaining = ([], some e))
      (hlimit : r'.limit = r.limit) (hdone : r'.ready = false ∧ r'.ended = true) :
      Passed r (.failed e r')

theorem Ok.fail (h : r.Ok) (hready : r.ready = false) :
    ({ r with ended := true, frame := r.frame.clear } : FrameReader).Ok where
  limit_lt := h.limit_lt
  capacity_le := h.capacity_le
  waiting _ := ⟨(h.waiting hready).1, by simp [Frame.clear], by simp [Frame.clear]⟩
  cleared _ _ := rfl
  complete hr := by rw [hready] at hr; cases hr

theorem accept_spec (h : r.Ok) (hready : r.ready = false) (hended : r.ended = false)
    {available : Bytes} (hbuf : r.inner.buffer = available) :
    ∃ p, r.accept available = some p ∧ Passed r p := by
  obtain ⟨hoff, hlf, hlen⟩ := h.waiting hready
  have hrem : r.remaining =
      accepted r.limit r.ending r.frame.bytes (available ++ (stream r.inner.script).1) := by
    simp only [remaining, hready, hended, unread, hbuf, Bool.false_eq_true, if_false]
  cases hn : available.findIdx? (· == lf) with
  | none =>
    have hno := findIdx_no_lf hn
    by_cases hfit : r.frame.bytes.length + available.length ≤ r.limit
    · obtain ⟨capacity, hcap, heq⟩ := accept_eq h hn available.length rfl (Nat.le_refl _) hfit
      rw [List.take_length] at heq
      refine ⟨_, heq, .again ⟨h.limit_lt, hcap, fun _ => ⟨hoff, ?_, ?_⟩, ?_, ?_⟩ ?_ rfl (Nat.le_refl _)⟩
      · exact fun hm => (List.mem_append.mp hm).elim hlf hno
      · rw [List.length_append]; exact hfit
      · intro _ he; rw [hended] at he; cases he
      · intro hr; cases hr
      · rw [hrem, accepted_append available _ _ hno hfit]
        simp [remaining, hended, unread, BufReader.consume, hbuf, ending]
    · refine ⟨_, accept_failed h hready (by rw [hn]; simpa using hfit),
        .failed (h.fail hready) ?_ rfl ⟨hready, rfl⟩⟩
      rw [hrem, accepted_oversized available _ _ hno hlen (by omega)]
  | some i =>
    obtain ⟨xs, post, hsplit, hi, hno⟩ := findIdx_lf hn
    have hav : i + 1 ≤ available.length := by
      rw [hsplit, List.length_append, List.length_cons]; omega
    by_cases hfit : r.frame.bytes.length + i ≤ r.limit
    · obtain ⟨capacity, hcap, heq⟩ := accept_eq h hn (i + 1) rfl hav hfit
      have htake : available.take (i + 1) = xs ++ [lf] := by
        rw [hsplit, ← hi, List.take_length_add_append]; rfl
      have hdrop : available.drop (i + 1) = post := by
        rw [hsplit, ← hi, List.drop_length_add_append]; rfl
      rw [htake] at heq
      refine ⟨_, heq, .again ⟨h.limit_lt, hcap, ?_, ?_, fun _ => ⟨?_, ?_⟩⟩ ?_ rfl (Nat.le_refl _)⟩
      · intro hr; cases hr
      · intro hr; cases hr
      · simp only [hoff, List.length_append, List.length_singleton]; omega
      · simp only [List.length_append, List.length_singleton]; omega
      · rw [hrem, hsplit, List.append_assoc, List.cons_append,
          accepted_lf _ _ _ hno (by omega)]
        simp [remaining, hended, unread, BufReader.consume, hbuf, ending, hdrop, hoff]
    · refine ⟨_, accept_failed h hready (by rw [hn]; simpa using hfit),
        .failed (h.fail hready) ?_ rfl ⟨hready, rfl⟩⟩
      rw [hrem, hsplit, List.append_assoc, accepted_oversized xs _ _ hno hlen (by omega)]

/-- A pass from a reader with the same bytes remaining. -/
theorem Passed.of_same {r₁ : FrameReader} {p : Pass} (h : Passed r₁ p)
    (hrem : r₁.remaining = r.remaining) (hlimit : r₁.limit = r.limit)
    (hscript : r₁.inner.script.length ≤ r.inner.script.length) : Passed r p := by
  cases h with
  | again hok h1 h2 h3 => exact .again hok (h1.trans hrem) (h2.trans hlimit) (Nat.le_trans h3 hscript)
  | leave hok h1 h2 h3 hend =>
    exact .leave hok (h1.trans hrem) (h2.trans hlimit) (Nat.le_trans h3 hscript) hend
  | pending hok h1 h2 h3 =>
    exact .pending hok (h1.trans hrem) (h2.trans hlimit) (Nat.lt_of_lt_of_le h3 hscript)
  | failed hok h1 h2 hdone => exact .failed hok (hrem.symm.trans h1) (h2.trans hlimit) hdone

/-- At the end of the stream what has been collected becomes the last frame. -/
theorem Passed.eof {script script' : List Read} {frame : Frame} {offset limit : Nat}
    (h : FrameReader.Ok ⟨⟨[], script⟩, frame, offset, false, false, limit⟩)
    (hend : stream script = ([], none)) (hscript : script'.length ≤ script.length) :
    Passed ⟨⟨[], script⟩, frame, offset, false, false, limit⟩
      (.leave ⟨⟨[], script'⟩, frame, offset, !frame.bytes.isEmpty, true, limit⟩) := by
  obtain ⟨hoff, hlf, hlen⟩ := h.waiting rfl
  refine .leave ⟨h.limit_lt, h.capacity_le, fun _ => ⟨hoff, hlf, hlen⟩, ?_, ?_⟩ ?_ rfl hscript (.inr rfl)
  · intro hr _; simpa using hr
  · intro hr
    have hne : frame.bytes ≠ [] := by simpa using hr
    dsimp only at hoff hlen ⊢
    exact ⟨by rw [hoff]; exact List.length_pos_iff.mpr hne, by omega⟩
  · dsimp only at hoff
    cases hb : frame.bytes with
    | nil => simp [remaining, hb, unread, hend, accepted, ending]
    | cons x xs => simp [remaining, hb, unread, hend, accepted, ending, hoff]

theorem pass_spec (h : r.Ok) (hready : r.ready = false) (hended : r.ended = false) :
    ∃ p, r.pass = some p ∧ Passed r p := by
  obtain ⟨⟨buffer, script⟩, frame, offset, ready, ended, limit⟩ := r
  obtain rfl : ready = false := hready
  obtain rfl : ended = false := hended
  cases buffer with
  | cons b bs => exact accept_spec h rfl rfl rfl
  | nil =>
    cases script with
    | nil => exact ⟨_, rfl, .eof h rfl (Nat.le_refl _)⟩
    | cons item rest =>
      have hrest : rest.length < (item :: rest).length := Nat.lt_succ_self _
      cases item with
      | pending =>
        refine ⟨_, rfl, .pending ⟨h.limit_lt, h.capacity_le, h.waiting, h.cleared, h.complete⟩ ?_ rfl hrest⟩
        simp [remaining, unread, stream, ending]
      | error e =>
        have hok : FrameReader.Ok ⟨⟨[], rest⟩, frame, offset, false, false, limit⟩ :=
          ⟨h.limit_lt, h.capacity_le, h.waiting, h.cleared, h.complete⟩
        refine ⟨_, rfl, .failed (hok.fail rfl) ?_ rfl ⟨rfl, rfl⟩⟩
        simp [remaining, unread, stream, ending, accepted]
      | data bytes =>
        cases bytes with
        | nil => exact ⟨_, rfl, .eof h rfl (Nat.le_of_lt hrest)⟩
        | cons b bs =>
          have hok : FrameReader.Ok ⟨⟨b :: bs, rest⟩, frame, offset, false, false, limit⟩ :=
            ⟨h.limit_lt, h.capacity_le, h.waiting, h.cleared, h.complete⟩
          obtain ⟨p, hp, hpass⟩ := accept_spec hok rfl rfl rfl
          refine ⟨p, hp, hpass.of_same ?_ rfl (Nat.le_of_lt hrest)⟩
          simp [remaining, unread, stream, ending]

/-- The loop as a whole: as a pass, but it never ends with "go on". -/
theorem fill_spec (r : FrameReader) (h : r.Ok) :
    ∃ p, r.fill = some p ∧ Passed r p ∧ ∀ r', p ≠ .again r' := by
  rw [fill]
  split
  · rename_i hend
    refine ⟨_, rfl, .leave h rfl rfl (Nat.le_refl _) ?_, by simp⟩
    simpa using hend
  · rename_i hgo
    simp only [Bool.or_eq_true, not_or, Bool.not_eq_true] at hgo
    obtain ⟨p, hp, hpass⟩ := pass_spec h hgo.1 hgo.2
    cases hpass with
    | @again r' hok hrem hlimit hscript =>
      have hlt := pass_again hp
      obtain ⟨p', hp', hpass', hne⟩ := fill_spec r' hok
      refine ⟨p', ?_, hpass'.of_same hrem hlimit hscript, hne⟩
      split
      · rename_i r'' hr''
        rw [hp] at hr''
        cases hr''
        exact hp'
      · rename_i hno
        exact absurd hp (hno r')
    | leave hok hrem hlimit hscript hend =>
      exact ⟨_, by rw [hp], .leave hok hrem hlimit hscript hend, by simp⟩
    | pending hok hrem hlimit hscript =>
      exact ⟨_, by rw [hp], .pending hok hrem hlimit hscript, by simp⟩
    | failed hok hrem hlimit hdone =>
      exact ⟨_, by rw [hp], .failed hok hrem hlimit hdone, by simp⟩
termination_by r.inner.size

/-- What remains before the loop of a complete frame, and after delivering `n` bytes of it. -/
theorem deliver_spec (h : r.Ok) {n : Nat} (hn : 0 < n) (hend : r.ready = true ∨ r.ended = true) :
    ∃ chunk r', r.deliver n = some (chunk, r') ∧ r'.Ok ∧ r'.limit = r.limit ∧ r'.inner = r.inner ∧
      r.remaining = (chunk ++ r'.remaining.1, r'.remaining.2) ∧
      (chunk = [] → r.remaining = ([], none)) := by
  cases hr : r.ready with
  | false =>
    have he : r.ended = true := hend.resolve_left (by simp [hr])
    have hrem : r.remaining = ([], none) := by simp [remaining, hr, he]
    exact ⟨[], r, by simp [deliver, hr], h, rfl, rfl, by rw [hrem]; rfl, fun _ => hrem⟩
  | true =>
    obtain ⟨hoff, hlen⟩ := h.complete hr
    have hlimit := h.limit_lt
    have hstop : r.offset + min n (r.frame.bytes.length - r.offset) ≤ r.frame.bytes.length := by
      omega
    have hdrop : ((r.frame.bytes.take (r.offset + min n (r.frame.bytes.length - r.offset))).drop
        r.offset) ++ r.frame.bytes.drop (r.offset + min n (r.frame.bytes.length - r.offset)) =
        r.frame.bytes.drop r.offset := by
      rw [← List.drop_drop, List.drop_take, Nat.add_sub_cancel_left]
      exact List.take_append_drop _ _
    have hne : ((r.frame.bytes.take (r.offset + min n (r.frame.bytes.length - r.offset))).drop
        r.offset) ≠ [] := by
      intro hnil
      have := congrArg List.length hnil
      simp only [List.length_drop, List.length_take, List.length_nil] at this
      omega
    simp only [deliver, hr, if_true]
    rw [usizeSub_eq (Nat.le_of_lt hoff)]
    simp only [Option.bind_eq_bind, Option.bind_some]
    rw [usizeAdd_eq (by omega)]
    simp only [Option.bind_some]
    rw [slice_eq (Nat.le_add_right _ _) hstop]
    simp only [Option.bind_some]
    split
    · rename_i hall
      refine ⟨_, _, rfl, ⟨h.limit_lt, h.capacity_le, ?_, fun _ _ => rfl, ?_⟩, rfl, rfl, ?_,
        fun hc => absurd hc hne⟩
      · exact fun _ => ⟨rfl, by simp [Frame.clear], by simp [Frame.clear]⟩
      · intro hf; cases hf
      · rw [hall, List.drop_length, List.append_nil] at hdrop
        rw [hall, hdrop]
        cases he : r.ended with
        | false => simp [remaining, hr, he, Frame.clear, unread, ending]
        | true => simp [remaining, hr, he]
    · rename_i hmore
      refine ⟨_, _, rfl, ⟨h.limit_lt, h.capacity_le, ?_, ?_, fun _ => ⟨?_, hlen⟩⟩, rfl, rfl, ?_,
        fun hc => absurd hc hne⟩
      · intro hf; cases hf
      · intro hf; cases hf
      · simp only; omega
      · cases he : r.ended with
        | false =>
          simp only [remaining, hr, he, if_true, Bool.false_eq_true, if_false]
          rw [← List.append_assoc, hdrop]
          rfl
        | true =>
          simp only [remaining, hr, he, if_true]
          rw [hdrop]

/-- What one poll with room for some bytes leads to. -/
inductive Polled (r : FrameReader) : Poll (Except IoError Bytes) → FrameReader → Prop where
  | pending {r' : FrameReader} (hrem : r'.remaining = r.remaining)
      (hscript : r'.inner.script.length < r.inner.script.length) : Polled r .pending r'
  | failed {e : IoError} {r' : FrameReader} (hrem : r.remaining = ([], some e))
      (hdone : r'.ready = false ∧ r'.ended = true) : Polled r (.ready (.error e)) r'
  | ok {chunk : Bytes} {r' : FrameReader}
      (hrem : r.remaining = (chunk ++ r'.remaining.1, r'.remaining.2))
      (hnil : chunk = [] → r.remaining = ([], none))
      (hscript : r'.inner.script.length ≤ r.inner.script.length) : Polled r (.ready (.ok chunk)) r'

theorem pollRead_spec (h : r.Ok) {n : Nat} (hn : 0 < n) :
    ∃ out r', r.pollRead n = some (out, r') ∧ r'.Ok ∧ r'.limit = r.limit ∧ Polled r out r' := by
  obtain ⟨p, hp, hpass, hne⟩ := fill_spec r h
  simp only [pollRead, if_neg (Nat.ne_of_gt hn), hp]
  cases hpass with
  | again => exact absurd rfl (hne _)
  | leave hok hrem hlimit hscript hend =>
    obtain ⟨chunk, r', hd, hok', hlimit', hinner, hrem', hnil⟩ := deliver_spec hok hn hend
    refine ⟨_, r', by simp only [hd]; rfl, hok', hlimit'.trans hlimit, .ok ?_ ?_ ?_⟩
    · rw [← hrem, hrem']
    · intro hc; rw [← hrem]; exact hnil hc
    · rw [hinner]; exact hscript
  | pending hok hrem hlimit hscript => exact ⟨_, _, rfl, hok, hlimit, .pending hrem hscript⟩
  | failed hok hrem hlimit hdone => exact ⟨_, _, rfl, hok, hlimit, .failed hrem hdone⟩

/-- After an error every poll reports the end of the stream. -/
theorem polls_done (hr : r.ready = false) (he : r.ended = true) (sizes : List Nat) :
    r.polls sizes = some (List.replicate sizes.length (.ready (.ok [])), r) := by
  induction sizes with
  | nil => rfl
  | cons n ns ih =>
    have hpoll : r.pollRead n = some (.ready (.ok []), r) := by
      simp only [pollRead]
      split
      · rfl
      · rw [fill, if_pos (by simp [he])]
        simp [deliver, hr]
    simp only [polls, hpoll, Option.bind_eq_bind, Option.bind_some, ih]
    rfl

end Body

end FrameReader

def delivered : List (Poll (Except IoError Bytes)) → Bytes
  | [] => []
  | .ready (.ok chunk) :: rest => chunk ++ delivered rest
  | _ :: rest => delivered rest

theorem delivered_append (xs ys : List (Poll (Except IoError Bytes))) :
    delivered (xs ++ ys) = delivered xs ++ delivered ys := by
  induction xs with
  | nil => rfl
  | cons x xs ih =>
    rcases x with _ | ⟨_ | chunk⟩
    · exact ih
    · exact ih
    · simp only [List.cons_append, delivered, ih, List.append_assoc]

/-- The results `outs` of polls with these buffer sizes are those of a reader that has to deliver
`want` and to end with `err`: nothing else is delivered; an error comes after everything, is `err`,
and is followed by end-of-stream only; end-of-stream is reported to a non-empty buffer only when
everything is delivered and the error, if any, reported; and `enough` polls reach the end. -/
structure Serves (want : Bytes) (err : Option IoError) (enough : Nat) (sizes : List Nat)
    (outs : List (Poll (Except IoError Bytes))) : Prop where
  length : outs.length = sizes.length
  delivers : delivered outs <+: want
  error : ∀ pre e post, outs = pre ++ .ready (.error e) :: post →
    err = some e ∧ delivered pre = want ∧ ∀ o ∈ post, o = .ready (.ok [])
  eof : ∀ pre post n, outs = pre ++ .ready (.ok []) :: post → sizes[pre.length]? = some n → 0 < n →
    delivered pre = want ∧ ∀ e, err = some e → .ready (.error e) ∈ pre
  complete : enough ≤ sizes.countP (0 < ·) →
    delivered outs = want ∧ ∀ e, err = some e → .ready (.error e) ∈ outs

namespace Serves

variable {want : Bytes} {err : Option IoError} {enough : Nat} {sizes : List Nat}
  {outs : List (Poll (Except IoError Bytes))}

theorem nil (want : Bytes) (err : Option IoError) {enough : Nat} (h : 0 < enough) :
    Serves want err enough [] [] where
  length := rfl
  delivers := List.nil_prefix
  error pre e post h := by simp at h
  eof pre post n h := by simp at h
  complete hle := by simp only [List.countP_nil] at hle; omega

/-- A poll that delivers `chunk`, possibly nothing: a pending one, an empty buffer, or bytes. -/
theorem cons (chunk : Bytes) {n enough' : Nat} {o : Poll (Except IoError Bytes)}
    (h : Serves want err enough sizes outs) (ho : delivered [o] = chunk)
    (hne : ∀ e, o ≠ .ready (.error e))
    (heof : o = .ready (.ok []) → 0 < n → want = [] ∧ err = none)
    (henough : 0 < n → o ≠ .ready (.ok []) → enough + 1 ≤ enough')
    (hmono : enough ≤ enough') :
    Serves (chunk ++ want) err enough' (n :: sizes) (o :: outs) := by
  have hd : ∀ xs, delivered (o :: xs) = chunk ++ delivered xs := fun xs => by
    rw [← ho, ← delivered_append]; rfl
  refine ⟨by simp [h.length], ?_, ?_, ?_, ?_⟩
  · rw [hd]
    exact (List.prefix_append_right_inj _).mpr h.delivers
  · intro pre e post heq
    cases pre with
    | nil => exact absurd (List.cons.inj heq).1 (hne e)
    | cons p pre =>
      obtain ⟨rfl, htail⟩ := List.cons.inj heq
      obtain ⟨h1, h2, h3⟩ := h.error pre e post htail
      exact ⟨h1, by rw [hd, h2], h3⟩
  · intro pre post k heq hk hpos
    cases pre with
    | nil =>
      obtain ⟨rfl, _⟩ := List.cons.inj heq
      obtain rfl : n = k := by simpa using hk
      obtain ⟨rfl, rfl⟩ := heof rfl hpos
      exact ⟨by rw [← ho]; rfl, fun e he => nomatch he⟩
    | cons p pre =>
      obtain ⟨rfl, htail⟩ := List.cons.inj heq
      obtain ⟨h1, h2⟩ := h.eof pre post k htail (by simpa using hk) hpos
      exact ⟨by rw [hd, h1], fun e he => List.mem_cons_of_mem _ (h2 e he)⟩
  · intro hle
    rw [hd]
    by_cases hdone : o = .ready (.ok []) ∧ 0 < n
    · obtain ⟨rfl, rfl⟩ := heof hdone.1 hdone.2
      exact ⟨by rw [List.prefix_nil.mp h.delivers], fun e he => nomatch he⟩
    · have hcount : enough ≤ sizes.countP (0 < ·) := by
        rw [List.countP_cons] at hle
        by_cases hn : 0 < n
        · have := henough hn fun hc => hdone ⟨hc, hn⟩
          simp only [hn, decide_true, if_true] at hle
          omega
        · simp only [hn, decide_false, Bool.false_eq_true, if_false] at hle
          omega
      obtain ⟨h1, h2⟩ := h.complete hcount
      exact ⟨by rw [h1], fun e he => List.mem_cons_of_mem _ (h2 e he)⟩

/-- The poll that reports the error, and all that follow. -/
theorem failed (e : IoError) (n : Nat) (sizes : List Nat) (enough : Nat) :
    Serves [] (some e) enough (n :: sizes)
      (.ready (.error e) :: List.replicate sizes.length (.ready (.ok []))) := by
  have hd : ∀ k, delivered (List.replicate k (.ready (.ok []))) = [] := by
    intro k
    induction k with
    | zero => rfl
    | succ k ih => rw [List.replicate_succ]; exact ih
  refine ⟨by simp, ?_, ?_, ?_, fun _ => ⟨hd _, ?_⟩⟩
  · show delivered (List.replicate _ _) <+: []
    simp [hd]
  · intro pre e' post heq
    cases pre with
    | nil =>
      obtain ⟨he, rfl⟩ := List.cons.inj heq
      cases he
      exact ⟨rfl, rfl, fun o ho => List.eq_of_mem_replicate ho⟩
    | cons p pre =>
      obtain ⟨_, heq⟩ := List.cons.inj heq
      have : .ready (.error e') ∈ List.replicate sizes.length (Poll.ready (Except.ok (α := Bytes) [])) := by
        rw [heq]; simp
      cases List.eq_of_mem_replicate this
  · intro pre post k heq _ _
    cases pre with
    | nil => cases (List.cons.inj heq).1
    | cons p pre =>
      obtain ⟨rfl, htail⟩ := List.cons.inj heq
      refine ⟨?_, fun e' he => by cases he; exact List.mem_cons_self ..⟩
      have htake : pre = List.replicate pre.length (.ready (.ok [])) :=
        List.eq_replicate_iff.mpr ⟨rfl, fun o ho => List.eq_of_mem_replicate (n := sizes.length)
          (by rw [htail]; exact List.mem_append_left _ ho)⟩
      show delivered pre = []
      rw [htake, hd]
  · intro e' he
    cases he
    exact List.mem_cons_self ..

end Serves

theorem polls_spec (sizes : List Nat) : ∀ r : FrameReader, r.Ok →
    ∃ outs r', r.polls sizes = some (outs, r') ∧ r'.Ok ∧ r'.limit = r.limit ∧
      Serves r.remaining.1 r.remaining.2 (r.inner.script.length + r.remaining.1.length + 1) sizes
        outs := by
  induction sizes with
  | nil => exact fun r h => ⟨[], r, rfl, h, rfl, .nil _ _ (Nat.succ_pos _)⟩
  | cons n sizes ih =>
    intro r h
    by_cases hn : n = 0
    · obtain ⟨outs, r', hp, hok, hlimit, hs⟩ := ih r h
      refine ⟨.ready (.ok []) :: outs, r', ?_, hok, hlimit, ?_⟩
      · simp only [FrameReader.polls, FrameReader.pollRead, if_pos hn, Option.bind_eq_bind,
          Option.bind_some, hp]
        rfl
      · exact hs.cons [] rfl (by simp) (fun _ h => by omega) (fun h => by omega) (Nat.le_refl _)
    · have hn : 0 < n := Nat.pos_of_ne_zero hn
      obtain ⟨out, r₁, hp₁, hok₁, hlimit₁, hpoll⟩ := FrameReader.pollRead_spec h hn
      obtain ⟨outs, r', hp, hok, hlimit, hs⟩ := ih r₁ hok₁
      have hpolls : r.polls (n :: sizes) = some (out :: outs, r') := by
        simp only [FrameReader.polls, hp₁, Option.bind_eq_bind, Option.bind_some, hp]
        rfl
      refine ⟨out :: outs, r', hpolls, hok, hlimit.trans hlimit₁, ?_⟩
      cases hpoll with
      | pending hrem hscript =>
        rw [hrem] at hs
        exact hs.cons [] rfl (by simp) (by simp) (fun _ _ => by omega) (by omega)
      | @failed e _ hrem hdone =>
        rw [FrameReader.polls_done hdone.1 hdone.2] at hp
        cases hp
        rw [hrem]
        exact .failed e n sizes _
      | @ok chunk _ hrem hnil hscript =>
        have hlen : r.remaining.1.length = chunk.length + r₁.remaining.1.length := by
          rw [hrem]; exact List.length_append
        rw [hrem] at hnil hlen ⊢
        refine hs.cons chunk (List.append_nil chunk) (by simp) ?_ ?_ ?_
        · intro hc _
          have hc : chunk = [] := by cases hc; rfl
          have := hnil hc
          rw [hc] at this
          exact ⟨congrArg Prod.fst this, congrArg Prod.snd this⟩
        · intro _ hc
          have hpos : 0 < chunk.length := by
            rw [List.length_pos_iff]
            rintro rfl
            exact hc rfl
          simp only [List.length_append] at hlen ⊢
          omega
        · simp only [List.length_append]; omega

/-- A sequence of whole frames within the limit, each with its newline. -/
def Whole (limit : Nat) (bytes : Bytes) : Prop :=
  ∃ frames : List Bytes, bytes = (frames.map (· ++ [lf])).flatten ∧
    ∀ f ∈ frames, lf ∉ f ∧ f.length ≤ limit

/-- What an all-or-nothing frame filter does with a stream: it delivers the longest first part of
it that consists of whole frames within the limit. If the rest is more than an unfinished frame
within the limit, the filter fails for it; if not, the rest is delivered at the end of the stream,
and dropped when the stream ends with an error. -/
def Filtered (limit : Nat) (bytes : Bytes) (ending : Option IoError) (want : Bytes)
    (err : Option IoError) : Prop :=
  ∃ whole tail, bytes = whole ++ tail ∧ Whole limit whole ∧
    (∀ q, Whole limit q → q <+: bytes → q <+: whole) ∧
    if lf ∈ tail ∨ limit < tail.length then want = whole ∧ err = some oversizedFrame
    else match ending with
      | none => want = whole ++ tail ∧ err = none
      | some e => want = whole ∧ err = some e

theorem whole_nil (limit : Nat) : Whole limit [] := ⟨[], rfl, by simp⟩

theorem Whole.cons {limit : Nat} {f bytes : Bytes} (h : Whole limit bytes) (hlf : lf ∉ f)
    (hlen : f.length ≤ limit) : Whole limit (f ++ lf :: bytes) := by
  obtain ⟨frames, rfl, hall⟩ := h
  refine ⟨f :: frames, by simp, fun g hg => ?_⟩
  rcases List.mem_cons.mp hg with rfl | hg
  · exact ⟨hlf, hlen⟩
  · exact hall g hg

theorem Whole.cases {limit : Nat} {q : Bytes} (h : Whole limit q) :
    q = [] ∨ ∃ f q', q = f ++ lf :: q' ∧ lf ∉ f ∧ f.length ≤ limit ∧ Whole limit q' := by
  obtain ⟨frames, rfl, hall⟩ := h
  cases frames with
  | nil => exact .inl rfl
  | cons f frames =>
    obtain ⟨h1, h2⟩ := hall f (List.mem_cons_self ..)
    exact .inr ⟨f, _, by simp, h1, h2, frames, rfl, fun g hg => hall g (List.mem_cons_of_mem _ hg)⟩

/-- The first newlines of two byte strings, one a first part of the other, stand at one place. -/
theorem prefix_lf {q' bytes : Bytes} (f : Bytes) : ∀ frame : Bytes, lf ∉ f → lf ∉ frame →
    f ++ lf :: q' <+: frame ++ lf :: bytes → f = frame ∧ q' <+: bytes := by
  induction f with
  | nil =>
    intro frame _ hframe hp
    cases frame with
    | nil => exact ⟨rfl, (List.cons_prefix_cons.mp hp).2⟩
    | cons b frame =>
      have hb := (List.cons_prefix_cons.mp hp).1
      exact absurd (List.mem_cons.mpr (.inl hb)) hframe
  | cons a f ih =>
    intro frame hf hframe hp
    cases frame with
    | nil =>
      have ha := (List.cons_prefix_cons.mp hp).1
      exact absurd (List.mem_cons.mpr (.inl ha.symm)) hf
    | cons b frame =>
      obtain ⟨rfl, htail⟩ := List.cons_prefix_cons.mp hp
      simp only [List.mem_cons, not_or] at hf hframe
      obtain ⟨rfl, hq⟩ := ih frame hf.2 hframe.2 htail
      exact ⟨rfl, hq⟩

/-- No whole frame within the limit begins where more bytes than that stand before the newline. -/
theorem no_whole {limit : Nat} {xs bytes q : Bytes} (hxs : lf ∉ xs) (hq : Whole limit q)
    (hover : limit < xs.length ∨ bytes = []) (hp : q <+: xs ++ bytes) : q = [] := by
  rcases hq.cases with h | ⟨f, q', rfl, _, hlen, _⟩
  · exact h
  · exfalso
    obtain ⟨rest, hrest⟩ := hp
    have hlt : f.length < xs.length := by
      rcases hover with h | rfl
      · omega
      · have := congrArg List.length hrest
        simp only [List.length_append, List.length_cons, List.append_nil] at this
        omega
    have hget : (xs ++ bytes)[f.length]? = some lf := by
      rw [← hrest, List.append_assoc, List.getElem?_append_right (Nat.le_refl _)]
      simp
    rw [List.getElem?_append_left hlt] at hget
    exact hxs (List.mem_of_getElem? hget)

theorem accepted_filtered (limit : Nat) (ending : Option IoError) (bytes : Bytes) :
    ∀ frame : Bytes, lf ∉ frame → frame.length ≤ limit →
      Filtered limit (frame ++ bytes) ending (accepted limit ending frame bytes).1
        (accepted limit ending frame bytes).2 := by
  induction bytes with
  | nil =>
    intro frame hlf hlen
    refine ⟨[], frame, by simp, whole_nil limit, fun q hq hp => ?_, ?_⟩
    · simp [no_whole hlf hq (.inr rfl) hp]
    · rw [if_neg (by simp only [not_or]; exact ⟨hlf, by omega⟩)]
      cases ending with
      | none => exact ⟨rfl, rfl⟩
      | some e => exact ⟨rfl, rfl⟩
  | cons b bytes ih =>
    intro frame hlf hlen
    by_cases hb : b = lf
    · subst hb
      obtain ⟨whole, tail, hsplit, hwhole, hlong, hrest⟩ := ih [] (by simp) (Nat.zero_le _)
      simp only [List.nil_append] at hsplit hlong
      rw [accepted, if_pos rfl]
      refine ⟨frame ++ lf :: whole, tail, by simp [← hsplit], hwhole.cons hlf hlen, ?_, ?_⟩
      · intro q hq hp
        rcases hq.cases with rfl | ⟨f, q', rfl, hf, _, hq'⟩
        · exact List.nil_prefix
        · obtain ⟨rfl, htail⟩ := prefix_lf f frame hf hlf hp
          exact (List.prefix_append_right_inj _).mpr
            (List.cons_prefix_cons.mpr ⟨rfl, hlong q' hq' htail⟩)
      · split at hrest
        · rename_i hover
          rw [if_pos hover]
          exact ⟨by rw [hrest.1], hrest.2⟩
        · rename_i hfit
          rw [if_neg hfit]
          cases ending with
          | none => exact ⟨by rw [hrest.1]; simp, hrest.2⟩
          | some e => exact ⟨by rw [hrest.1], hrest.2⟩
    · have hlf' : lf ∉ frame ++ [b] := by
        simp only [List.mem_append, List.mem_singleton, not_or]
        exact ⟨hlf, Ne.symm hb⟩
      have happ : frame ++ b :: bytes = (frame ++ [b]) ++ bytes := by simp
      rw [accepted, if_neg hb]
      split
      · rw [happ]
        refine ih (frame ++ [b]) hlf' ?_
        simp only [List.length_append, List.length_singleton]; omega
      · rename_i hfull
        refine ⟨[], frame ++ b :: bytes, rfl, whole_nil limit, fun q hq hp => ?_, ?_⟩
        · have hover : limit < (frame ++ [b]).length := by
            simp only [List.length_append, List.length_singleton]; omega
          rw [happ] at hp
          simp [no_whole hlf' hq (.inl hover) hp]
        · rw [if_pos]
          · exact ⟨rfl, rfl⟩
          · right
            simp only [List.length_append, List.length_cons]; omega

/-- The reader of a script with this limit serves every sequence of buffer sizes as an
all-or-nothing frame filter of the script's bytes, without a panic and within its buffer. -/
def ExactFilter (limit : Nat) (script : List Read) (sizes : List Nat) : Prop :=
  ∃ want err outs r, Filtered limit (stream script).1 (stream script).2 want err ∧
    (FrameReader.withLimit script limit).polls sizes = some (outs, r) ∧
    r.frame.capacity ≤ limit + 1 ∧
    Serves want err (script.length + want.length + 1) sizes outs

theorem frameReader_exact (limit : Nat) (hlimit : limit < usizeMax) (script : List Read)
    (sizes : List Nat) : ExactFilter limit script sizes := by
  have hok : (FrameReader.withLimit script limit).Ok :=
    ⟨hlimit, Nat.zero_le _, fun _ => ⟨rfl, by simp [FrameReader.withLimit], Nat.zero_le _⟩,
      fun _ _ => rfl, fun h => nomatch h⟩
  have hrem : (FrameReader.withLimit script limit).remaining =
      accepted limit (stream script).2 [] (stream script).1 := by
    simp [FrameReader.remaining, FrameReader.withLimit, FrameReader.unread, FrameReader.ending]
  obtain ⟨outs, r, hp, hok', hlim, hs⟩ := polls_spec sizes _ hok
  rw [hrem] at hs
  refine ⟨_, _, outs, r, accepted_filtered limit (stream script).2 (stream script).1 [] (by simp)
    (Nat.zero_le _), hp, ?_, hs⟩
  have := hok'.capacity_le
  rw [hlim] at this
  exact this

/-- A frame, a frame above the limit in two pieces, and a reader with room for two bytes. -/
theorem frameReader_exact_split :
    ExactFilter 4 [.data [111, 107, 10, 49, 50], .pending, .data [51, 52, 53, 10]] [2, 2, 2, 2] :=
  frameReader_exact 4 (by decide) _ _

/-- With the greatest possible limit the first byte of a frame overflows `limit + 1`. -/
theorem limit_max_panics :
    ¬ ∀ limit ≤ usizeMax, ∀ script sizes, ExactFilter limit script sizes := by
  intro hall
  obtain ⟨want, err, outs, r, _, hp, _⟩ := hall usizeMax (Nat.le_refl _) [.data [97]] [1]
  have hpass : (FrameReader.withLimit [.data [97]] usizeMax).pass = none := by decide
  have hfill : (FrameReader.withLimit [.data [97]] usizeMax).fill = none := by
    rw [FrameReader.fill, if_neg (by decide)]
    split
    · rename_i h; rw [hpass] at h; cases h
    · exact hpass
  simp only [FrameReader.polls, FrameReader.pollRead, hfill] at hp
  cases hp

end Framing
end Mcp
end CodeSage
