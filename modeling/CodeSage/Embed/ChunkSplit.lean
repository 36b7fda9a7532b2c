import CodeSage.Embed.Chunk

/-!
# CodeSage.Embed.ChunkSplit

`split_recursive` and `merge_small_chunks` lose nothing: the segments are the offsets of non-empty
pieces that make up the text, each within the character budget (`Pieces`).
-/

namespace CodeSage
namespace Embed

open Lib

/-- The offsets of consecutive pieces of a text. -/
def spans : Nat → List Text → List Segment
  | _, [] => []
  | start, b :: bs => ⟨start, start + Utf8.size b⟩ :: spans (start + Utf8.size b) bs

structure Pieces (maxSize : Nat) (text : Text) (bs : List Text) : Prop where
  flatten : bs.flatten = text
  nonempty : ∀ b ∈ bs, b ≠ []
  fit : ∀ b ∈ bs, b.length ≤ maxSize

section Spans

theorem spans_append (start : Nat) (as bs : List Text) :
    spans start (as ++ bs) = spans start as ++ spans (start + Utf8.size as.flatten) bs := by
  induction as generalizing start with
  | nil => rfl
  | cons a as ih => simp [spans, ih, Nat.add_assoc]

theorem spans_shift (k start : Nat) (bs : List Text) :
    (spans start bs).map (fun p => ⟨k + p.start, k + p.stop⟩) = spans (k + start) bs := by
  induction bs generalizing start with
  | nil => rfl
  | cons b bs ih => simp [spans, ih, Nat.add_assoc]

theorem size_pos {b : Text} (h : b ≠ []) : 0 < Utf8.size b :=
  Nat.pos_of_ne_zero fun h0 => h (Utf8.size_eq_zero.mp h0)

end Spans

variable {maxSize : Nat} {text : Text}

theorem Pieces.singleton (hne : text ≠ []) (hfit : text.length ≤ maxSize) :
    Pieces maxSize text [text] := by
  refine ⟨by simp, fun b hb => ?_, fun b hb => ?_⟩
  · rw [List.mem_singleton.mp hb]; exact hne
  · rw [List.mem_singleton.mp hb]; exact hfit

theorem Pieces.append {text' : Text} {as bs : List Text} (ha : Pieces maxSize text as)
    (hb : Pieces maxSize text' bs) : Pieces maxSize (text ++ text') (as ++ bs) := by
  refine ⟨by rw [List.flatten_append, ha.flatten, hb.flatten], fun b hm => ?_, fun b hm => ?_⟩
  · rcases List.mem_append.mp hm with hm | hm
    · exact ha.nonempty b hm
    · exact hb.nonempty b hm
  · rcases List.mem_append.mp hm with hm | hm
    · exact ha.fit b hm
    · exact hb.fit b hm

section Parts

variable {sep : Text}

/-- `cur` has been read since the last match, which ended at `start`. -/
theorem partsFrom_matchIndices (hsep : sep ≠ []) :
    ∀ (fuel start : Nat) (cur rest : Text), rest.length ≤ fuel → ∃ bs,
      bs.flatten = cur ++ rest ∧ (∀ b ∈ bs, b ≠ []) ∧
      partsFrom (start + Utf8.size cur + Utf8.size rest) (Utf8.size sep) start
        (matchIndices sep fuel (start + Utf8.size cur) rest) = spans start bs := by
  have hend : ∀ (start : Nat) (cur : Text), ∃ bs : List Text, bs.flatten = cur ++ [] ∧
      (∀ b ∈ bs, b ≠ []) ∧
      partsFrom (start + Utf8.size cur + Utf8.size []) (Utf8.size sep) start [] = spans start bs := by
    intro start cur
    by_cases hcur : cur = []
    · subst hcur
      exact ⟨[], by simp, by simp, by simp [partsFrom, spans]⟩
    · refine ⟨[cur], by simp, by simpa using hcur, ?_⟩
      have hlt : start < start + Utf8.size cur + Utf8.size [] := by simpa using size_pos hcur
      rw [partsFrom, if_pos hlt]
      rfl
  intro fuel
  induction fuel with
  | zero =>
    intro start cur rest hlen
    obtain rfl : rest = [] := List.length_eq_zero_iff.mp (Nat.le_zero.mp hlen)
    exact hend start cur
  | succ fuel ih =>
    intro start cur rest hlen
    cases rest with
    | nil => exact hend start cur
    | cons c rest =>
      rw [matchIndices]
      by_cases hp : sep.isPrefixOf (c :: rest) = true
      · obtain ⟨after, hafter⟩ := List.isPrefixOf_iff_prefix.mp hp
        have hpos := size_pos hsep
        have hsepLen : 0 < sep.length := List.length_pos_iff.mpr hsep
        have hdrop : (c :: rest).drop sep.length = after := by rw [← hafter]; simp
        have hlen' : after.length ≤ fuel := by
          have := congrArg List.length hafter
          rw [List.length_append] at this
          omega
        obtain ⟨bs, hflat, hne, hparts⟩ := ih (start + Utf8.size cur + Utf8.size sep) [] after hlen'
        refine ⟨(cur ++ sep) :: bs, ?_, ?_, ?_⟩
        · rw [List.flatten_cons, hflat, List.nil_append, List.append_assoc, hafter]
        · intro b hb
          rcases List.mem_cons.mp hb with rfl | hb
          · simp [hsep]
          · exact hne b hb
        · rw [if_pos hp, partsFrom, if_pos (by omega), hdrop, spans, Utf8.size_append,
            ← Nat.add_assoc, ← hparts]
          simp only [Utf8.size_nil, Nat.add_zero, ← hafter, Utf8.size_append, Nat.add_assoc]
      · obtain ⟨bs, hflat, hne, hparts⟩ := ih start (cur ++ [c]) rest (by simpa using hlen)
        refine ⟨bs, by simpa using hflat, hne, ?_⟩
        rw [if_neg hp, ← hparts]
        simp only [Utf8.size_append, Utf8.size_cons, Utf8.size_nil, Nat.add_zero, Nat.add_assoc]

theorem splitKeepingOffsets_spans (text : Text) (hsep : sep ≠ []) : ∃ bs : List Text,
    bs.flatten = text ∧ (∀ b ∈ bs, b ≠ []) ∧ splitKeepingOffsets text sep = spans 0 bs := by
  have := partsFrom_matchIndices hsep text.length 0 [] text (Nat.le_refl _)
  simpa [splitKeepingOffsets] using this

end Parts

/-- The fallback cuts every `maxSize` characters. -/
theorem splitChars_spans (hmax : 1 ≤ maxSize) :
    ∀ (fuel : Nat) (before rest : Text), rest.length < fuel → ∃ bs,
      Pieces maxSize rest bs ∧
      splitChars (before ++ rest) maxSize fuel (Utf8.size before) = some (spans (Utf8.size before) bs) := by
  intro fuel
  induction fuel with
  | zero => intro before rest h; omega
  | succ fuel ih =>
    intro before rest hlen
    rw [splitChars, Utf8.size_append]
    by_cases hrest : rest = []
    · subst hrest
      refine ⟨[], ⟨rfl, by simp, by simp⟩, ?_⟩
      rw [if_neg (by simp)]
      rfl
    · have hpos := size_pos hrest
      have hne : 0 < rest.length := List.length_pos_iff.mpr hrest
      have hsplit : before ++ rest = before ++ rest.take maxSize ++ rest.drop maxSize := by
        rw [List.append_assoc, List.take_append_drop]
      -- the end of the piece, whether or not the text goes on after it
      have hadv : advanceByChars (before ++ rest) (Utf8.size before) maxSize =
          some (Utf8.size (before ++ rest.take maxSize)) := by
        rw [advanceByChars, Utf8.sliceFrom_append]
        simp only [Option.bind_eq_bind, Option.bind_some, Utf8.size_append, Utf8.offset]
        split
        · rfl
        · rename_i hge
          rw [List.take_of_length_le (Nat.le_of_not_lt hge)]
          rfl
      obtain ⟨bs, hbs, hrun⟩ := ih (before ++ rest.take maxSize) (rest.drop maxSize)
        (by rw [List.length_drop]; omega)
      rw [← hsplit, Utf8.size_append] at hrun
      refine ⟨rest.take maxSize :: bs, ?_, ?_⟩
      · have hfirst : Pieces maxSize (rest.take maxSize) [rest.take maxSize] := by
          refine .singleton (fun h0 => ?_) (by rw [List.length_take]; omega)
          have := congrArg List.length h0
          rw [List.length_take, List.length_nil] at this
          omega
        have := hfirst.append hbs
        rwa [List.take_append_drop] at this
      · rw [if_pos (by omega), hadv]
        simp only [Option.bind_eq_bind, Option.bind_some, hrun, spans, Utf8.size_append]
        rfl

/-- The loop of `split_recursive`: `done` are the pieces pushed, `cur` is the one being built. -/
structure SplitInv (maxSize : Nat) (done : List Text) (cur : Text) (s : Splitting) : Prop where
  pieces : Pieces maxSize done.flatten done
  segments : s.segments = spans 0 done
  start : s.currentStart = Utf8.size done.flatten
  stop : s.currentEnd = Utf8.size done.flatten + Utf8.size cur
  len : cur ≠ [] → s.currentLen = cur.length
  fit : cur.length ≤ maxSize

theorem SplitInv.flushed {done : List Text} {cur : Text} {s : Splitting}
    (h : SplitInv maxSize done cur s) : ∃ bs, Pieces maxSize (done.flatten ++ cur) bs ∧
      s.flushed = spans 0 bs := by
  by_cases hcur : cur = []
  · subst hcur
    refine ⟨done, by rw [List.append_nil]; exact h.pieces, ?_⟩
    rw [Splitting.flushed, if_neg (by rw [h.start, h.stop]; simp), h.segments]
  · refine ⟨done ++ [cur], h.pieces.append (.singleton hcur h.fit), ?_⟩
    have := size_pos hcur
    rw [Splitting.flushed, if_pos (by rw [h.start, h.stop]; omega), h.segments, spans_append, h.start,
      h.stop, Nat.zero_add]
    rfl

/-- One part. -/
theorem SplitInv.add {done : List Text} {cur : Text} {s : Splitting}
    (h : SplitInv maxSize done cur s) {part : Text} (after : Text)
    {sub : Text → Option (List Segment)}
    (hsub : ∃ bs, Pieces maxSize part bs ∧ sub part = some (spans 0 bs)) :
    ∃ done' cur' s', Splitting.add (done.flatten ++ cur ++ part ++ after) maxSize sub s
        ⟨s.currentEnd, s.currentEnd + Utf8.size part⟩ = some s' ∧
      SplitInv maxSize done' cur' s' ∧ done'.flatten ++ cur' = done.flatten ++ cur ++ part ∧
      s'.currentEnd = s.currentEnd + Utf8.size part := by
  have hslice : Utf8.slice (done.flatten ++ cur ++ part ++ after) s.currentEnd
      (s.currentEnd + Utf8.size part) = some part := by
    rw [h.stop, ← Utf8.size_append, List.append_assoc]
    exact Utf8.slice_append ..
  obtain ⟨flushed, hflushed, hsegs⟩ := h.flushed
  simp only [Splitting.add, hslice, Option.bind_eq_bind, Option.bind_some]
  have hcand : (if s.currentStart = s.currentEnd then part.length else s.currentLen + part.length) =
      (cur ++ part).length := by
    by_cases hcur : cur = []
    · rw [if_pos (by rw [h.start, h.stop, hcur]; simp), hcur, List.nil_append]
    · have := size_pos hcur
      rw [if_neg (by rw [h.start, h.stop]; omega), h.len hcur, List.length_append]
  rw [hcand]
  by_cases hfit : (cur ++ part).length ≤ maxSize
  · rw [if_pos hfit]
    refine ⟨done, cur ++ part, _, rfl, ⟨h.pieces, h.segments, h.start, ?_, fun _ => rfl, hfit⟩,
      by rw [List.append_assoc], rfl⟩
    rw [h.stop, Utf8.size_append, Nat.add_assoc]
  · rw [if_neg hfit]
    by_cases hlong : maxSize < part.length
    · obtain ⟨bs, hbs, hrun⟩ := hsub
      have hdone := hflushed.append hbs
      rw [if_pos hlong, hrun]
      refine ⟨flushed ++ bs, [], _, rfl, ⟨?_, ?_, ?_, ?_, by simp, by simp⟩, ?_, rfl⟩
      · rw [hdone.flatten]; exact hdone
      · rw [spans_append, hsegs, hflushed.flatten, spans_shift, h.stop, Utf8.size_append, Nat.zero_add,
          Nat.add_zero]
      · rw [hdone.flatten, h.stop, Utf8.size_append, Utf8.size_append]
      · rw [hdone.flatten, h.stop, Utf8.size_append, Utf8.size_append]
        rfl
      · rw [hdone.flatten, List.append_nil]
    · rw [if_neg hlong]
      refine ⟨flushed, part, _, rfl, ⟨?_, hsegs, ?_, ?_, fun _ => rfl, Nat.le_of_not_lt hlong⟩, ?_, rfl⟩
      · rw [hflushed.flatten]; exact hflushed
      · rw [hflushed.flatten, h.stop, Utf8.size_append]
      · rw [hflushed.flatten, h.stop, Utf8.size_append]
      · rw [hflushed.flatten]

/-- All parts. -/
theorem SplitInv.adds {sub : Text → Option (List Segment)} :
    ∀ (parts : List Text) {done : List Text} {cur : Text} {s : Splitting},
      SplitInv maxSize done cur s →
      (∀ p ∈ parts, ∃ bs, Pieces maxSize p bs ∧ sub p = some (spans 0 bs)) →
      ∃ bs, Pieces maxSize (done.flatten ++ cur ++ parts.flatten) bs ∧ ∃ s',
        (spans s.currentEnd parts).foldlM
          (Splitting.add (done.flatten ++ cur ++ parts.flatten) maxSize sub) s = some s' ∧
        s'.flushed = spans 0 bs := by
  intro parts
  induction parts with
  | nil =>
    intro done cur s h _
    obtain ⟨bs, hbs, hrun⟩ := h.flushed
    exact ⟨bs, by simpa using hbs, s, rfl, hrun⟩
  | cons p parts ih =>
    intro done cur s h hsub
    obtain ⟨done', cur', s', hadd, h', htext, hend⟩ := h.add parts.flatten
      (hsub p (List.mem_cons_self ..))
    obtain ⟨bs, hbs, s'', hrun, hflush⟩ := ih h' fun q hq => hsub q (List.mem_cons_of_mem _ hq)
    rw [htext] at hbs hrun
    rw [List.flatten_cons, ← List.append_assoc]
    refine ⟨bs, hbs, s'', ?_, hflush⟩
    rw [spans, List.foldlM_cons, hadd, ← hend]
    exact hrun

/-- Every separator of the list is non-empty, and so is the text. -/
theorem splitRecursive_spans (hmax : 1 ≤ maxSize) :
    ∀ (seps : List Text) (text : Text), (∀ sep ∈ seps, sep ≠ []) → text ≠ [] →
      ∃ bs, Pieces maxSize text bs ∧ splitRecursive maxSize seps text = some (spans 0 bs) := by
  intro seps
  induction seps with
  | nil =>
    intro text _ hne
    rw [splitRecursive]
    by_cases hfit : Utf8.size text ≤ maxSize ∨ text.length ≤ maxSize
    · have := Utf8.length_le_size text
      rw [if_pos hfit]
      exact ⟨[text], .singleton hne (by omega), by simp [spans]⟩
    · rw [if_neg hfit]
      have := splitChars_spans hmax (Utf8.size text + 1) [] text
        (Nat.lt_succ_of_le (Utf8.length_le_size text))
      simpa using this
  | cons sep seps ih =>
    intro text hseps hne
    rw [splitRecursive]
    by_cases hfit : Utf8.size text ≤ maxSize ∨ text.length ≤ maxSize
    · have := Utf8.length_le_size text
      rw [if_pos hfit]
      exact ⟨[text], .singleton hne (by omega), by simp [spans]⟩
    · rw [if_neg hfit]
      obtain ⟨parts, hflat, hparts, hoffsets⟩ :=
        splitKeepingOffsets_spans text (hseps sep (List.mem_cons_self ..))
      have hinit : SplitInv maxSize [] [] {} :=
        ⟨⟨rfl, by simp, by simp⟩, rfl, rfl, rfl, by simp, Nat.zero_le _⟩
      obtain ⟨bs, hbs, s, hrun, hflush⟩ := hinit.adds parts fun p hp =>
        ih p (fun q hq => hseps q (List.mem_cons_of_mem _ hq)) (hparts p hp)
      simp only [List.flatten_nil, List.nil_append, hflat] at hbs hrun
      refine ⟨bs, hbs, ?_⟩
      rw [hoffsets]
      simp only [hrun, Option.bind_eq_bind, Option.bind_some, hflush]
      rfl

section Merge

variable (minSize : Nat)

theorem spans_reverse_concat (as : List Text) (b : Text) : (spans 0 (as ++ [b])).reverse =
    ⟨Utf8.size as.flatten, Utf8.size as.flatten + Utf8.size b⟩ :: (spans 0 as).reverse := by
  rw [spans_append, List.reverse_append, Nat.zero_add]
  rfl

theorem segmentChars_eq (a b c : Text) :
    segmentChars (a ++ b ++ c) ⟨Utf8.size a, Utf8.size a + Utf8.size b⟩ = some b.length := by
  rw [segmentChars, List.append_assoc, Utf8.slice_append]
  rfl

/-- The last two pieces joined. -/
theorem Pieces.join {as : List Text} {a b : Text} (h : Pieces maxSize text (as ++ [a] ++ [b]))
    (hfit : a.length + b.length ≤ maxSize) : Pieces maxSize text (as ++ [a ++ b]) := by
  refine ⟨?_, fun c hc => ?_, fun c hc => ?_⟩
  · rw [← h.flatten]
    simp
  · rcases List.mem_append.mp hc with hc | hc
    · exact h.nonempty c (by simp [hc])
    · rw [List.mem_singleton.mp hc]
      have := h.nonempty a (by simp)
      simp [this]
  · rcases List.mem_append.mp hc with hc | hc
    · exact h.fit c (by simp [hc])
    · rw [List.mem_singleton.mp hc, List.length_append]
      exact hfit

/-- One segment of the first pass. -/
theorem mergeStep_spans {as : List Text} {b : Text} (after : Text)
    (h : Pieces maxSize (as.flatten ++ b) (as ++ [b])) :
    ∃ bs, Pieces maxSize (as.flatten ++ b) bs ∧
      mergeStep (as.flatten ++ b ++ after) minSize maxSize (spans 0 as).reverse
        ⟨Utf8.size as.flatten, Utf8.size as.flatten + Utf8.size b⟩ = some (spans 0 bs).reverse := by
  rcases List.eq_nil_or_concat as with rfl | ⟨as, a, rfl⟩
  · exact ⟨[b], h, by simp [mergeStep, spans]⟩
  · rw [List.concat_eq_append] at h ⊢
    have hflat : (as ++ [a]).flatten = as.flatten ++ a := by simp
    have hlast : segmentChars ((as ++ [a]).flatten ++ b ++ after)
        ⟨Utf8.size as.flatten, Utf8.size as.flatten + Utf8.size a⟩ = some a.length := by
      rw [hflat, List.append_assoc (as.flatten ++ a)]
      exact segmentChars_eq ..
    have hseg := segmentChars_eq (as ++ [a]).flatten b after
    simp only [spans_reverse_concat, mergeStep, hlast, hseg, Option.bind_eq_bind, Option.bind_some]
    split
    · rename_i hc
      refine ⟨as ++ [a ++ b], h.join hc.2, ?_⟩
      rw [spans_reverse_concat, hflat]
      simp only [Utf8.size_append, Nat.add_assoc]
      rfl
    · exact ⟨as ++ [a] ++ [b], h, by rw [spans_reverse_concat, spans_reverse_concat]; rfl⟩

/-- The first pass. -/
theorem mergeSteps_spans : ∀ (bs as : List Text),
    Pieces maxSize text (as ++ bs) →
    ∃ cs, Pieces maxSize text cs ∧
      (spans (Utf8.size as.flatten) bs).foldlM (mergeStep text minSize maxSize) (spans 0 as).reverse =
        some (spans 0 cs).reverse := by
  intro bs
  induction bs with
  | nil =>
    intro as h
    exact ⟨as, by simpa using h, rfl⟩
  | cons b bs ih =>
    intro as h
    have htext : text = as.flatten ++ b ++ bs.flatten := by rw [← h.flatten]; simp
    have hfirst : Pieces maxSize (as.flatten ++ b) (as ++ [b]) :=
      ⟨by simp, fun c hc => h.nonempty c (by simp at hc ⊢; tauto),
        fun c hc => h.fit c (by simp at hc ⊢; tauto)⟩
    obtain ⟨as', has', hstep⟩ := mergeStep_spans minSize bs.flatten hfirst
    have hnext : Pieces maxSize text (as' ++ bs) := by
      refine ⟨by rw [List.flatten_append, has'.flatten, ← htext], fun c hc => ?_, fun c hc => ?_⟩
      · rcases List.mem_append.mp hc with hc | hc
        · exact has'.nonempty c hc
        · exact h.nonempty c (by simp [hc])
      · rcases List.mem_append.mp hc with hc | hc
        · exact has'.fit c hc
        · exact h.fit c (by simp [hc])
    obtain ⟨cs, hcs, hrun⟩ := ih as' hnext
    refine ⟨cs, hcs, ?_⟩
    rw [← htext] at hstep
    rw [spans, List.foldlM_cons, hstep, ← Utf8.size_append, ← has'.flatten]
    exact hrun

/-- The second pass. -/
theorem mergeLast_spans {as : List Text} (h : Pieces maxSize text as) :
    ∃ bs, Pieces maxSize text bs ∧
      mergeLast text minSize maxSize (spans 0 as).reverse = some (spans 0 bs).reverse := by
  rcases List.eq_nil_or_concat as with rfl | ⟨as, b, rfl⟩
  · exact ⟨[], h, rfl⟩
  rw [List.concat_eq_append] at h ⊢
  rcases List.eq_nil_or_concat as with rfl | ⟨as, a, rfl⟩
  · exact ⟨[b], h, rfl⟩
  rw [List.concat_eq_append] at h ⊢
  have hflat : (as ++ [a]).flatten = as.flatten ++ a := by simp
  have htext : text = as.flatten ++ a ++ b := by rw [← h.flatten]; simp
  have hlast : segmentChars text ⟨Utf8.size (as ++ [a]).flatten,
      Utf8.size (as ++ [a]).flatten + Utf8.size b⟩ = some b.length := by
    have := segmentChars_eq (as.flatten ++ a) b []
    rwa [List.append_nil, ← htext, ← hflat] at this
  have hprev : segmentChars text ⟨Utf8.size as.flatten, Utf8.size as.flatten + Utf8.size a⟩ =
      some a.length := by
    rw [htext]
    exact segmentChars_eq ..
  simp only [spans_reverse_concat, mergeLast, hlast, hprev, Option.bind_eq_bind, Option.bind_some]
  split
  · split
    · rename_i hfit
      refine ⟨as ++ [a ++ b], h.join hfit, ?_⟩
      rw [spans_reverse_concat, hflat]
      simp only [Utf8.size_append, Nat.add_assoc]
      rfl
    · exact ⟨as ++ [a] ++ [b], h, by rw [spans_reverse_concat, spans_reverse_concat]; rfl⟩
  · exact ⟨as ++ [a] ++ [b], h, by rw [spans_reverse_concat, spans_reverse_concat]; rfl⟩

theorem mergeSmallChunks_spans {as : List Text} (h : Pieces maxSize text as) :
    ∃ bs, Pieces maxSize text bs ∧
      mergeSmallChunks (spans 0 as) text minSize maxSize = some (spans 0 bs) := by
  obtain ⟨bs, hbs, hrun⟩ := mergeSteps_spans minSize as [] h
  obtain ⟨cs, hcs, hlast⟩ := mergeLast_spans minSize hbs
  refine ⟨cs, hcs, ?_⟩
  simp only [List.flatten_nil, Utf8.size_nil, spans, List.reverse_nil] at hrun
  rw [mergeSmallChunks, hrun]
  simp only [Option.bind_eq_bind, Option.bind_some, hlast, List.reverse_reverse]
  rfl

end Merge

end Embed
end CodeSage
