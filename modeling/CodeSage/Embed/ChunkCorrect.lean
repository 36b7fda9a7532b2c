import CodeSage.Embed.ChunkOverlap
import Mathlib.Data.List.Forall2

/-!
# CodeSage.Embed.ChunkCorrect

`chunk_text` returns the segments of the text with their overlap, lines and bytes, less those that
are literal data, and never panics, if a `u32` can count the lines.
-/

namespace CodeSage
namespace Embed

open Lib

/-- Non-empty segments on character boundaries that make up the text, within the budget. -/
structure Tiled (text : Text) (maxSize : Nat) (segs : List Segment) : Prop where
  first : segs.head?.map Segment.start = some 0
  last : segs.getLast?.map Segment.stop = some (Utf8.size text)
  contiguous : segs.IsChain fun a b => a.stop = b.start
  piece : ∀ s ∈ segs, ∃ piece, Utf8.slice text s.start s.stop = some piece ∧ piece ≠ [] ∧
    piece.length ≤ maxSize

/-- A segment before and after `apply_overlap`. -/
structure Overlaps (text : Text) (overlap maxSize : Nat) (s s' : Segment) : Prop where
  stop : s'.stop = s.stop
  start : s'.start ≤ s.start
  near : ∃ more, Utf8.slice text s'.start s.start = some more ∧ more.length ≤ overlap
  fit : ∃ piece, Utf8.slice text s'.start s'.stop = some piece ∧ piece.length ≤ maxSize

def newlinesBefore (content : Text) (pos : Nat) : Nat := ((Utf8.bytes content).take pos).count 10

/-- The end of a segment without its trailing newline. -/
def countEnd (content : Text) (stop : Nat) : Nat :=
  if (Utf8.bytes content)[stop - 1]? = some 10 then stop - 1 else stop

structure Describes (content : Text) (seg : Segment) (chunk : Chunk) : Prop where
  text : Utf8.slice content seg.start seg.stop = some chunk.text
  startByte : chunk.startByte = seg.start
  endByte : chunk.endByte = seg.stop
  startLine : chunk.startLine = 1 + newlinesBefore content seg.start
  endLine : chunk.endLine = 1 + newlinesBefore content (countEnd content seg.stop)

/-- The number of the last line. -/
def lastLine (content : Text) : Nat := 1 + newlinesBefore content (countEnd content (Utf8.size content))

section Lines

theorem partitionPoint_newlines (bytes : List UInt8) (k pos : Nat) :
    partitionPoint (· < pos) (((bytes.zipIdx k).filter fun b => b.1 == 10).map Prod.snd) =
      (bytes.take (pos - k)).count 10 := by
  unfold partitionPoint
  induction bytes generalizing k with
  | nil => simp
  | cons b bytes ih =>
    rw [List.zipIdx_cons]
    by_cases hk : k < pos
    · obtain ⟨n, hn⟩ : ∃ n, pos - k = n + 1 := ⟨pos - k - 1, by omega⟩
      have hn' : pos - (k + 1) = n := by omega
      have := ih (k + 1)
      rw [hn'] at this
      rw [hn, List.take_succ_cons]
      by_cases hb : b = 10
      · subst hb
        simp [hk, this]
      · simp [hb, this]
    · have hn : pos - k = 0 := by omega
      have hn' : pos - (k + 1) = 0 := by omega
      have := ih (k + 1)
      rw [hn'] at this
      rw [hn]
      by_cases hb : b = 10
      · subst hb
        simp [hk]
      · simpa [hb] using this

theorem newlinesBefore_mono (content : Text) {p q : Nat} (h : p ≤ q) :
    newlinesBefore content p ≤ newlinesBefore content q :=
  (List.take_sublist_take_left h).count_le 10

theorem le_countEnd (content : Text) {p stop : Nat} (h : p < stop) : p ≤ countEnd content stop := by
  unfold countEnd
  split <;> omega

theorem countEnd_le (content : Text) (stop : Nat) : countEnd content stop ≤ stop := by
  unfold countEnd
  split <;> omega

theorem countEnd_mono (content : Text) {p q : Nat} (h : p ≤ q) :
    countEnd content p ≤ countEnd content q := by
  rcases Nat.lt_or_eq_of_le h with h | rfl
  · exact Nat.le_trans (countEnd_le content p) (le_countEnd content h)
  · exact Nat.le_refl _

theorem lineAt_eq {content : Text} (hlines : lastLine content < 2 ^ 32) {pos : Nat}
    (hpos : pos ≤ countEnd content (Utf8.size content)) :
    lineAt (newlineOffsets content) pos = some (1 + newlinesBefore content pos) := by
  have hcount : partitionPoint (· < pos) (newlineOffsets content) = newlinesBefore content pos := by
    have := partitionPoint_newlines (Utf8.bytes content) 0 pos
    rwa [Nat.sub_zero] at this
  have hle : newlinesBefore content pos + 1 < 2 ^ 32 := by
    have := newlinesBefore_mono content hpos
    unfold lastLine at hlines
    omega
  rw [lineAt, hcount, lineNumber, Nat.mod_eq_of_lt (by omega), if_pos hle, Nat.add_comm]

end Lines

variable {text : Text}

/-- A segment between characters, with its lines. -/
theorem chunkOf_offset (hlines : lastLine text < 2 ^ 32) {i j : Nat} (hij : i < j)
    (hj : j ≤ text.length) :
    ∃ chunk, chunkOf text (newlineOffsets text) ⟨Utf8.offset text i, Utf8.offset text j⟩ = some chunk ∧
      Describes text ⟨Utf8.offset text i, Utf8.offset text j⟩ chunk := by
  have hlt : Utf8.offset text i < Utf8.offset text j := Utf8.offset_lt hij hj
  have hend : countEnd text (Utf8.offset text j) ≤ countEnd text (Utf8.size text) :=
    countEnd_mono text (Utf8.offset_le_size j)
  have hstart : Utf8.offset text i ≤ countEnd text (Utf8.size text) :=
    Nat.le_trans (le_countEnd text hlt) hend
  have hbyte : Utf8.offset text j - 1 < (Utf8.bytes text).length := by
    have : Utf8.offset text j ≤ Utf8.size text := Utf8.offset_le_size j
    rw [Utf8.length_bytes]
    omega
  have hget := List.getElem?_eq_getElem hbyte
  have hcount : (if (Utf8.bytes text)[Utf8.offset text j - 1] = 10 then Utf8.offset text j - 1
      else Utf8.offset text j) = countEnd text (Utf8.offset text j) := by
    rw [countEnd, hget]
    simp only [Option.some.injEq]
  refine ⟨⟨(text.take j).drop i, _, _, Utf8.offset text i, Utf8.offset text j⟩, ?_,
    Utf8.slice_offset (Nat.le_of_lt hij), rfl, rfl, rfl, rfl⟩
  simp only [chunkOf, snapToCharBoundary_offset, findCharBoundary_offset, Option.bind_eq_bind,
    lineAt_eq hlines hstart, Option.bind_some, if_pos hlt, hget, Option.pure_def, hcount,
    lineAt_eq hlines hend, Utf8.slice_offset (Nat.le_of_lt hij)]

section Moved

variable {overlap maxSize : Nat} {f : Nat → Nat → Nat}

theorem drop_pieces {i : Nat} {b : Text} {bs : List Text} (htext : text.drop i = (b :: bs).flatten) :
    text.drop (i + b.length) = bs.flatten := by
  rw [← List.drop_drop, htext]
  simp

theorem pieces_length {i : Nat} {b : Text} {bs : List Text} (hi : i ≤ text.length)
    (htext : text.drop i = (b :: bs).flatten) : i + b.length ≤ text.length := by
  have := congrArg List.length htext
  rw [List.length_drop, List.flatten_cons, List.length_append] at this
  omega

/-- Every segment lies between two characters of the text. -/
theorem mem_moved (hf : Moves overlap maxSize f) (bs : List Text) {i : Nat} (hi : i ≤ text.length)
    (htext : text.drop i = bs.flatten) (hne : ∀ b ∈ bs, b ≠ []) :
    ∀ s ∈ moved text f i bs, ∃ a e, a < e ∧ e ≤ text.length ∧
      s = ⟨Utf8.offset text a, Utf8.offset text e⟩ := by
  induction bs generalizing i with
  | nil => simp [moved]
  | cons b bs ih =>
    intro s hs
    have hlen := pieces_length hi htext
    have hpos : 0 < b.length := List.length_pos_iff.mpr (hne b (List.mem_cons_self ..))
    rcases List.mem_cons.mp hs with rfl | hs
    · have := hf.earlier i (i + b.length)
      exact ⟨_, _, by omega, hlen, rfl⟩
    · exact ih hlen (drop_pieces htext) (fun c hc => hne c (List.mem_cons_of_mem _ hc)) s hs

theorem overlaps_moved (hf : Moves overlap maxSize f) (bs : List Text) {i : Nat} (hi : i ≤ text.length)
    (htext : text.drop i = bs.flatten) (hfit : ∀ b ∈ bs, b.length ≤ maxSize) :
    List.Forall₂ (Overlaps text overlap maxSize) (moved text (fun i _ => i) i bs) (moved text f i bs) := by
  induction bs generalizing i with
  | nil => exact .nil
  | cons b bs ih =>
    have hlen := pieces_length hi htext
    have hearlier := hf.earlier i (i + b.length)
    have hnear := hf.near i (i + b.length)
    have hbudget := hf.fit i (i + b.length) (by
      have := hfit b (List.mem_cons_self ..)
      omega)
    refine .cons ⟨rfl, Utf8.offset_le hearlier, ?_, ?_⟩
      (ih hlen (drop_pieces htext) fun c hc => hfit c (List.mem_cons_of_mem _ hc))
    · refine ⟨_, Utf8.slice_offset hearlier, ?_⟩
      show ((text.take i).drop (f i (i + b.length))).length ≤ overlap
      rw [List.length_drop, List.length_take]
      omega
    · refine ⟨_, Utf8.slice_offset (by omega), ?_⟩
      rw [List.length_drop, List.length_take]
      omega

theorem starts_moved (hf : Moves overlap maxSize f) (bs : List Text) (i : Nat) :
    (moved text f i bs).IsChain fun a b => a.start ≤ b.start := by
  induction bs generalizing i with
  | nil => exact .nil
  | cons b bs ih =>
    cases bs with
    | nil => exact .singleton _
    | cons b' bs =>
      refine List.IsChain.cons_cons (Utf8.offset_le (hf.mono _ _ _ _ ?_ ?_)) (ih (i + b.length)) <;> omega

/-- Each segment holds one piece. -/
theorem mem_spans (bs : List Text) {before : Text} {s : Segment}
    (hs : s ∈ spans (Utf8.size before) bs) :
    ∃ b ∈ bs, Utf8.slice (before ++ bs.flatten) s.start s.stop = some b := by
  induction bs generalizing before with
  | nil => cases hs
  | cons b bs ih =>
    rw [List.flatten_cons]
    rcases List.mem_cons.mp hs with rfl | hs
    · exact ⟨b, List.mem_cons_self .., Utf8.slice_append ..⟩
    · rw [← Utf8.size_append] at hs
      obtain ⟨c, hc, hslice⟩ := ih hs
      rw [List.append_assoc] at hslice
      exact ⟨c, List.mem_cons_of_mem _ hc, hslice⟩

theorem tiled_spans {bs : List Text} (h : Pieces maxSize text bs) (hne : text ≠ []) :
    Tiled text maxSize (spans 0 bs) := by
  have hchain : ∀ (bs : List Text) (start : Nat),
      (spans start bs).IsChain fun a b => a.stop = b.start := by
    intro bs
    induction bs with
    | nil => exact fun _ => .nil
    | cons b bs ih =>
      intro start
      cases bs with
      | nil => exact .singleton _
      | cons b' bs => exact .cons_cons rfl (ih _)
  refine ⟨?_, ?_, hchain bs 0, fun s hs => ?_⟩
  · cases bs with
    | nil => exact absurd h.flatten.symm hne
    | cons b bs => rfl
  · rcases List.eq_nil_or_concat bs with rfl | ⟨bs, b, rfl⟩
    · exact absurd h.flatten.symm hne
    · rw [List.concat_eq_append] at h ⊢
      rw [spans_append, List.getLast?_append, ← h.flatten]
      simp [spans]
  · obtain ⟨b, hb, hslice⟩ := mem_spans bs (show s ∈ spans (Utf8.size []) bs from hs)
    rw [List.nil_append, h.flatten] at hslice
    exact ⟨b, hslice, h.nonempty b hb, h.fit b hb⟩

end Moved

theorem mapM_chunkOf (segs : List Segment)
    (h : ∀ s ∈ segs, ∃ chunk, chunkOf text (newlineOffsets text) s = some chunk ∧ Describes text s chunk) :
    ∃ chunks, segs.mapM (chunkOf text (newlineOffsets text)) = some chunks ∧
      List.Forall₂ (Describes text) segs chunks := by
  induction segs with
  | nil => exact ⟨[], rfl, .nil⟩
  | cons s segs ih =>
    obtain ⟨chunk, hrun, hd⟩ := h s (List.mem_cons_self ..)
    obtain ⟨chunks, hruns, hds⟩ := ih fun s' hs' => h s' (List.mem_cons_of_mem _ hs')
    refine ⟨chunk :: chunks, ?_, .cons hd hds⟩
    rw [List.mapM_cons, hrun, Option.bind_eq_bind, Option.bind_some, hruns]
    rfl

/-- What `chunk_text` does with a text whose lines a `u32` can count. -/
theorem chunk_text_correct (content : Text) (config : ChunkConfig) (hlines : lastLine content < 2 ^ 32) :
    (content = [] → chunkText content config = some []) ∧
    (content ≠ [] → ∃ raw merged overlapped chunks,
      splitRecursive (max config.chunkSize 1) separators content = some raw ∧
      mergeSmallChunks raw content config.minChunkSize (max config.chunkSize 1) = some merged ∧
      Tiled content (max config.chunkSize 1) merged ∧
      applyOverlap merged content config.overlap (max config.chunkSize 1) = some overlapped ∧
      List.Forall₂ (Overlaps content config.overlap (max config.chunkSize 1)) merged overlapped ∧
      overlapped.IsChain (fun a b => a.start ≤ b.start) ∧
      List.Forall₂ (Describes content) overlapped chunks ∧
      chunkText content config = some (chunks.filter fun chunk => !isLiteralData chunk.text)) := by
  refine ⟨fun h => by rw [chunkText, if_pos h], fun hne => ?_⟩
  have hseps : ∀ sep ∈ separators, sep ≠ [] := by decide
  obtain ⟨as, has, hraw⟩ := splitRecursive_spans (Nat.le_max_right config.chunkSize 1) separators
    content hseps hne
  obtain ⟨bs, hbs, hmerged⟩ := mergeSmallChunks_spans config.minChunkSize has
  obtain ⟨f, hf, hoverlap⟩ := applyOverlap_moved config.overlap (max config.chunkSize 1) hbs.flatten
  have hzero : content.drop 0 = bs.flatten := by simpa using hbs.flatten.symm
  have hid : moved content (fun i _ => i) 0 bs = spans 0 bs := by
    have := moved_id bs hzero
    rwa [Utf8.offset_zero] at this
  obtain ⟨chunks, hchunks, hdescribes⟩ := mapM_chunkOf (moved content f 0 bs) fun s hs => by
    obtain ⟨a, e, hae, he, rfl⟩ := mem_moved hf bs (Nat.zero_le _) hzero hbs.nonempty s hs
    exact chunkOf_offset hlines hae he
  refine ⟨_, _, _, chunks, hraw, hmerged, tiled_spans hbs hne, hoverlap, ?_, starts_moved hf bs 0,
    hdescribes, ?_⟩
  · rw [← hid]
    exact overlaps_moved hf bs (Nat.zero_le _) hzero hbs.fit
  · simp only [chunkText, if_neg hne, hraw, hmerged, hoverlap, hchunks, Option.bind_eq_bind,
      Option.bind_some]
    rfl

theorem chunk_text_correct_twoLines : lastLine ['a', '\n', 'b'] < 2 ^ 32 ∧
    ∃ raw merged overlapped chunks,
      splitRecursive 2 separators ['a', '\n', 'b'] = some raw ∧
      mergeSmallChunks raw ['a', '\n', 'b'] 1 2 = some merged ∧ Tiled ['a', '\n', 'b'] 2 merged ∧
      applyOverlap merged ['a', '\n', 'b'] 1 2 = some overlapped ∧
      List.Forall₂ (Overlaps ['a', '\n', 'b'] 1 2) merged overlapped ∧
      overlapped.IsChain (fun a b => a.start ≤ b.start) ∧
      List.Forall₂ (Describes ['a', '\n', 'b']) overlapped chunks ∧
      chunkText ['a', '\n', 'b'] ⟨2, 1, 1⟩ =
        some (chunks.filter fun chunk => !isLiteralData chunk.text) :=
  ⟨by decide, (chunk_text_correct ['a', '\n', 'b'] ⟨2, 1, 1⟩ (by decide)).2 (by decide)⟩

section Overflow

theorem size_blank (n : Nat) : Utf8.size (List.replicate n '\n') = n := by
  induction n with
  | zero => rfl
  | succ n ih =>
    rw [List.replicate_succ, Utf8.size_cons, ih]
    exact Nat.add_comm 1 n

theorem bytes_blank (n : Nat) : Utf8.bytes (List.replicate n '\n') = List.replicate n 10 := by
  induction n with
  | zero => rfl
  | succ n ih =>
    rw [List.replicate_succ, ← List.singleton_append, Utf8.bytes_append, ih]
    rfl

/-- A single segment of blank lines: its last line has no `u32`. -/
theorem chunkText_blank {n : Nat} (hn : 0 < n) (hbig : (n - 1) % 2 ^ 32 = 2 ^ 32 - 1) :
    chunkText (List.replicate n '\n') ⟨n, 0, 0⟩ = none := by
  have hne : List.replicate n '\n' ≠ [] := by
    rw [Ne, List.replicate_eq_nil_iff]
    omega
  have hmax : max n 1 = n := Nat.max_eq_left hn
  have hraw : splitRecursive n separators (List.replicate n '\n') = some [⟨0, n⟩] := by
    unfold splitRecursive
    rw [size_blank, if_pos (.inl (Nat.le_refl n))]
  have hend : findCharBoundary (List.replicate n '\n') n = n := by
    rw [findCharBoundary, size_blank, if_pos (Nat.le_refl n)]
  have hstart : snapToCharBoundary (List.replicate n '\n') 0 = 0 :=
    snapToCharBoundary_offset 0
  have hbyte : (Utf8.bytes (List.replicate n '\n'))[n - 1]? = some 10 := by
    rw [bytes_blank, List.getElem?_replicate, if_pos (by omega)]
  have hcount : partitionPoint (· < n - 1) (newlineOffsets (List.replicate n '\n')) = n - 1 := by
    have := partitionPoint_newlines (Utf8.bytes (List.replicate n '\n')) 0 (n - 1)
    rw [bytes_blank, Nat.sub_zero, List.take_replicate, List.count_replicate_self,
      Nat.min_eq_left (by omega)] at this
    rw [newlineOffsets, bytes_blank]
    exact this
  have hline : lineAt (newlineOffsets (List.replicate n '\n')) (n - 1) = none := by
    rw [lineAt, hcount, lineNumber, hbig, if_neg (by decide)]
  have hchunk : chunkOf (List.replicate n '\n') (newlineOffsets (List.replicate n '\n')) ⟨0, n⟩ = none := by
    simp only [chunkOf, hstart, hend, if_pos hn, hbyte, Option.bind_eq_bind, Option.bind_some,
      Option.pure_def, if_true, hline, Option.bind_none]
    cases lineAt (newlineOffsets (List.replicate n '\n')) 0 <;> rfl
  simp only [chunkText, if_neg hne, hmax, hraw, Option.bind_eq_bind, Option.bind_some]
  simp [mergeSmallChunks, mergeStep, mergeLast, applyOverlap, hchunk]

/-- `2 ^ 32` blank lines in one chunk: `end_line` would be `2 ^ 32`. -/
theorem blankLines_panic : chunkText (List.replicate (2 ^ 32) '\n') ⟨2 ^ 32, 0, 0⟩ = none :=
  chunkText_blank (by decide) (by decide)

end Overflow

end Embed
end CodeSage
