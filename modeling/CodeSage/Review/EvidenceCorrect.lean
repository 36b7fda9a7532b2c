import CodeSage.Lib.Adjacent
import CodeSage.Review.Evidence

/-!
# CodeSage.Review.EvidenceCorrect

What `evidence_match` finds: a line of the source that begins two quoted lines in a row, or that is a quoted line
of its own, no further than 15 lines from the citation.
-/

namespace CodeSage
namespace Review

open Lib

section Spec

variable (h : Host)

/-- The normalised lines of a source. -/
def sourceLines (source : Text) : List Text := (splitLines source).map normalizeLine

/-- The line of this number, from one. -/
def LineAt (lines : List Text) (n : Nat) (line : Text) : Prop := 1 ≤ n ∧ lines[n - 1]? = some line

/-- Two quoted lines in a row, with a letter or a digit in each, are the nonblank lines `a` and `b` in a row. -/
structure BlockAt (lines quoted : List Text) (a b : Nat) : Prop where
  lt : a < b
  quotes : ∃ x y, [x, y] <:+: quoted ∧ blockEvidenceLine h x = true ∧ blockEvidenceLine h y = true ∧
    LineAt lines a x ∧ LineAt lines b y
  blank : ∀ c, a < c → c < b → LineAt lines c []

/-- A quoted line of at least 40 characters, with a letter or a digit, is the line `a` and no other. -/
structure UniqueAt (lines quoted : List Text) (a : Nat) : Prop where
  quotes : ∃ x ∈ quoted, substantive h x 40 = true ∧ LineAt lines a x ∧ ∀ c, LineAt lines c x → c = a

/-- At most 15 lines from the citation. -/
def Near (cited n : Nat) : Prop := cited ≤ n + 15 ∧ n ≤ cited + 15

end Spec

section Matches

variable {h : Host} {lines quoted : List Text} {cited m n : Nat} {line : Text}

theorem lineAt_le (hn : LineAt lines n line) : n ≤ lines.length := by
  obtain ⟨hpos, hline⟩ := hn
  have := (List.getElem?_eq_some_iff.mp hline).1
  omega

theorem mem_numberedLines : (n, line) ∈ lines.zipIdx.map (fun p => (p.2 + 1, p.1)) ↔ LineAt lines n line := by
  rw [List.mem_map, LineAt]
  constructor
  · rintro ⟨p, hp, heq⟩
    cases heq
    exact ⟨by omega, List.mem_zipIdx_iff_getElem?.mp hp⟩
  · rintro ⟨hpos, hline⟩
    refine ⟨(line, n - 1), List.mem_zipIdx_iff_getElem?.mpr hline, ?_⟩
    rw [Prod.mk.injEq]
    exact ⟨by omega, rfl⟩

theorem numberedLines_sorted : (lines.zipIdx.map fun p => (p.2 + 1, p.1)).Pairwise fun a b => a.1 < b.1 := by
  rw [List.pairwise_map]
  have hidx : (lines.zipIdx.map Prod.snd).Pairwise (· < ·) := by
    rw [List.zipIdx_map_snd]
    exact List.pairwise_lt_range'
  exact (List.pairwise_map.mp hidx).imp fun h => Nat.succ_lt_succ h

/-- The lines of a window that are not blank. -/
def windowLines (lines : List Text) (lower upper : Nat) : List (Nat × Text) :=
  (lines.zipIdx.map fun p => (p.2 + 1, p.1)).filter fun line => !line.2.isEmpty && lower ≤ line.1 && line.1 ≤ upper

theorem mem_windowLines {lower upper : Nat} : (n, line) ∈ windowLines lines lower upper ↔
    LineAt lines n line ∧ line ≠ [] ∧ lower ≤ n ∧ n ≤ upper := by
  rw [windowLines, List.mem_filter, mem_numberedLines]
  simp [and_assoc]

theorem ne_nil_of_block (hline : blockEvidenceLine h line = true) : line ≠ [] := by
  rintro rfl
  cases hline

theorem mem_blockMatches {lower upper : Nat} : m ∈ blockMatches h quoted (windowLines lines lower upper) ↔
    ∃ b, BlockAt h lines quoted m b ∧ lower ≤ m ∧ b ≤ upper := by
  have hsorted : (windowLines lines lower upper).Pairwise fun a b => a.1 < b.1 :=
    numberedLines_sorted.sublist List.filter_sublist
  rw [blockMatches, List.mem_flatMap]
  constructor
  · rintro ⟨⟨x, y⟩, hquoted, hpair⟩
    simp only at hpair
    split at hpair
    · cases hpair
    · rename_i hsome
      obtain ⟨hx, hy⟩ : blockEvidenceLine h x = true ∧ blockEvidenceLine h y = true := by simpa using hsome
      obtain ⟨⟨⟨a, xa⟩, b, yb⟩, hnext, hat⟩ := List.mem_filterMap.mp hpair
      split at hat
      · rename_i hsame
        obtain ⟨rfl, rfl⟩ : xa = x ∧ yb = y := by simpa using hsame
        cases hat
        obtain ⟨ha, hb, hlt, hnone⟩ := (Adjacent.mem_zip_tail_iff_between hsorted).mp hnext
        obtain ⟨hline, -, hlow, hhigh⟩ : LineAt lines a xa ∧ xa ≠ [] ∧ lower ≤ a ∧ a ≤ upper := mem_windowLines.mp ha
        obtain ⟨hline', -, hlow', hhigh'⟩ : LineAt lines b yb ∧ yb ≠ [] ∧ lower ≤ b ∧ b ≤ upper :=
          mem_windowLines.mp hb
        refine ⟨b, ⟨hlt, ⟨_, _, Adjacent.mem_zip_tail_iff_infix.mp hquoted, hx, hy, hline, hline'⟩, ?_⟩, hlow, hhigh'⟩
        intro c (hac : a < c) hcb
        have hclt : c - 1 < lines.length := by
          have := lineAt_le hline'
          omega
        have hc : LineAt lines c lines[c - 1] := ⟨by omega, List.getElem?_eq_getElem hclt⟩
        by_contra hblank
        have hne : lines[c - 1] ≠ [] := fun hnil => hblank (hnil ▸ hc)
        have := hnone (c, lines[c - 1]) (mem_windowLines.mpr ⟨hc, hne, by omega, by omega⟩) hac
        exact absurd this (not_le.mpr hcb)
      · cases hat
  · rintro ⟨b, ⟨hlt, ⟨x, y, hquoted, hx, hy, ha, hb⟩, hblank⟩, hlow, hhigh⟩
    refine ⟨(x, y), Adjacent.mem_zip_tail_iff_infix.mpr hquoted, ?_⟩
    simp only
    rw [hx, hy, if_neg (by decide), List.mem_filterMap]
    refine ⟨((m, x), b, y), (Adjacent.mem_zip_tail_iff_between hsorted).mpr ⟨?_, ?_, hlt, ?_⟩, by simp⟩
    · exact mem_windowLines.mpr ⟨ha, ne_nil_of_block hx, hlow, by omega⟩
    · exact mem_windowLines.mpr ⟨hb, ne_nil_of_block hy, by omega, hhigh⟩
    · rintro ⟨c, line⟩ hc hac
      obtain ⟨hline, hne, -, -⟩ := mem_windowLines.mp hc
      by_contra hcb
      obtain ⟨-, hnil⟩ := hblank c hac (not_le.mp hcb)
      rw [hline.2, Option.some.injEq] at hnil
      exact hne hnil

/-- The numbers of the lines that are `line`. -/
theorem positions_eq_singleton (position : Nat) :
    ((lines.zipIdx.map fun p => (p.2 + 1, p.1)).filterMap fun numbered =>
        if numbered.2 = line then some numbered.1 else none) = [position] ↔
      LineAt lines position line ∧ ∀ c, LineAt lines c line → c = position := by
  set positions := (lines.zipIdx.map fun p => (p.2 + 1, p.1)).filterMap fun numbered =>
    if numbered.2 = line then some numbered.1 else none with hpositions
  have hmem : ∀ n, n ∈ positions ↔ LineAt lines n line := by
    intro n
    rw [hpositions, List.mem_filterMap]
    constructor
    · rintro ⟨⟨n', line'⟩, hp, heq⟩
      split at heq
      · rename_i hline
        cases heq
        cases hline
        exact mem_numberedLines.mp hp
      · cases heq
    · intro hn
      exact ⟨(n, line), mem_numberedLines.mpr hn, if_pos rfl⟩
  have hnodup : positions.Nodup := by
    refine List.Pairwise.filterMap _ (fun a a' hlt b hb b' hb' => ?_) numberedLines_sorted
    split at hb
    · split at hb'
      · cases hb
        cases hb'
        exact Nat.ne_of_lt hlt
      · cases hb'
    · cases hb
  constructor
  · intro heq
    refine ⟨(hmem _).mp (heq ▸ List.mem_singleton_self _), fun c hc => ?_⟩
    have := (hmem c).mpr hc
    rw [heq] at this
    exact List.mem_singleton.mp this
  · rintro ⟨hline, honly⟩
    refine List.perm_singleton.mp ((List.perm_ext_iff_of_nodup hnodup (List.nodup_singleton _)).mpr fun c => ?_)
    rw [hmem, List.mem_singleton]
    exact ⟨honly c, fun hc => hc ▸ hline⟩

theorem mem_uniqueMatches {lower upper : Nat} :
    m ∈ uniqueMatches h quoted (lines.zipIdx.map fun p => (p.2 + 1, p.1)) lower upper ↔
      UniqueAt h lines quoted m ∧ lower ≤ m ∧ m ≤ upper := by
  rw [uniqueMatches, List.mem_flatMap]
  constructor
  · rintro ⟨x, hx, hat⟩
    split at hat
    · cases hat
    · rename_i hsub
      split at hat
      · rename_i position heq
        split at hat
        · rename_i hwindow
          obtain ⟨hlow, hhigh⟩ : lower ≤ position ∧ position ≤ upper := by simpa using hwindow
          cases List.mem_singleton.mp hat
          obtain ⟨hline, honly⟩ := (positions_eq_singleton m).mp heq
          exact ⟨⟨x, hx, by simpa using hsub, hline, honly⟩, hlow, hhigh⟩
        · cases hat
      · cases hat
  · rintro ⟨⟨x, hx, hsub, hline, honly⟩, hlow, hhigh⟩
    refine ⟨x, hx, ?_⟩
    rw [hsub, if_neg (by decide), (positions_eq_singleton m).mpr ⟨hline, honly⟩]
    simp [hlow, hhigh]

end Matches

section Best

/-- An element that beats all others is chosen. -/
theorem firstBest_of_best {α : Type} {better : α → α → Bool} {xs : List α} {x : α} (hx : x ∈ xs)
    (hbest : ∀ y ∈ xs, y ≠ x → better x y = true ∧ better y x = false) : firstBest better xs = some x := by
  have hfold : ∀ (l : List α) (b : α), x ∈ b :: l → (∀ y ∈ b :: l, y ∈ xs) →
      l.foldl (fun best y => if better y best then y else best) b = x := by
    intro l
    induction l with
    | nil => exact fun b hmem _ => (List.mem_singleton.mp hmem).symm
    | cons c l ih =>
      intro b hmem hsub
      have hb := hsub b List.mem_cons_self
      have hc := hsub c (List.mem_cons_of_mem _ List.mem_cons_self)
      have hl : ∀ y ∈ l, y ∈ xs := fun y hy => hsub y (List.mem_cons_of_mem _ (List.mem_cons_of_mem _ hy))
      rw [List.foldl_cons]
      refine ih _ ?_ ?_
      · by_cases hbx : b = x
        · by_cases hcx : c = x
          · rw [hbx, hcx, ite_self]
            exact List.mem_cons_self
          · rw [hbx, (hbest c hc hcx).2]
            exact List.mem_cons_self
        · by_cases hcx : c = x
          · rw [hcx, (hbest b hb hbx).1]
            exact List.mem_cons_self
          · refine List.mem_cons_of_mem _ ?_
            rcases List.mem_cons.mp hmem with h | hmem
            · exact (hbx h.symm).elim
            · exact (List.mem_cons.mp hmem).resolve_left fun h => hcx h.symm
      · intro y hy
        rcases List.mem_cons.mp hy with rfl | hy
        · split
          · exact hc
          · exact hb
        · exact hl y hy
  cases xs with
  | nil => cases hx
  | cons b l => exact congrArg some (hfold l b hx fun y hy => hy)

theorem firstBest_eq_none {α : Type} {better : α → α → Bool} {xs : List α} : firstBest better xs = none ↔ xs = [] := by
  cases xs with
  | nil => exact ⟨fun _ => rfl, fun _ => rfl⟩
  | cons x xs => exact ⟨nofun, nofun⟩

end Best

section Main

variable (h : Host) (source : Text) (evidence : List Json)

/-- The places that an evidence list names around a citation. -/
def Named (cited m : Nat) : Prop :=
  Near cited m ∧ (UniqueAt h (sourceLines source) (evidenceLines evidence) m ∨
    ∃ b, BlockAt h (sourceLines source) (evidenceLines evidence) m b ∧ Near cited b)

/-- The matches that `evidence_match` chooses from. -/
def allMatches (cited : Nat) : List Nat :=
  blockMatches h (evidenceLines evidence)
      (windowLines (sourceLines source) (max (cited - 15) 1) (min (cited + 15) (sourceLines source).length)) ++
    uniqueMatches h (evidenceLines evidence) ((sourceLines source).zipIdx.map fun p => (p.2 + 1, p.1))
      (max (cited - 15) 1) (min (cited + 15) (sourceLines source).length)

/-- `key` of `min`: the distance, then the number. -/
def closer (cited a b : Nat) : Bool :=
  distance a cited < distance b cited || (distance a cited = distance b cited && a < b)

variable {h source evidence} {cited m : Nat}

theorem evidenceMatch_eq (hcited : 1 ≤ cited) :
    evidenceMatch h source cited evidence = firstBest (closer cited) (allMatches h source evidence cited) := by
  have hmax : (max (cited : Int) 1).toNat = cited := by omega
  rw [evidenceMatch, hmax]
  rfl

theorem mem_allMatches (hcited : 1 ≤ cited) : m ∈ allMatches h source evidence cited ↔
    Named h source evidence cited m := by
  rw [allMatches, List.mem_append, mem_blockMatches, mem_uniqueMatches, Named, Near]
  constructor
  · rintro (⟨b, hblock, hlow, hhigh⟩ | ⟨hunique, hlow, hhigh⟩)
    · have hlt := hblock.lt
      refine ⟨by omega, .inr ⟨b, hblock, ?_⟩⟩
      rw [Near]
      omega
    · exact ⟨by omega, .inl hunique⟩
  · rintro ⟨hnear, hunique | ⟨b, hblock, hnear'⟩⟩
    · obtain ⟨x, -, -, hline, -⟩ := hunique.quotes
      have hpos := hline.1
      have hle := lineAt_le hline
      exact .inr ⟨hunique, by omega, by omega⟩
    · obtain ⟨x, y, -, -, -, hline, hline'⟩ := hblock.quotes
      rw [Near] at hnear'
      have hpos := hline.1
      have hle := lineAt_le hline'
      exact .inl ⟨b, hblock, by omega, by omega⟩

theorem evidenceMatch_named (hcited : 1 ≤ cited) (hm : evidenceMatch h source cited evidence = some m) :
    Named h source evidence cited m := by
  rw [evidenceMatch_eq hcited] at hm
  exact (mem_allMatches hcited).mp (firstBest_mem hm)

/-- The citation itself is chosen when the evidence names it. -/
theorem evidenceMatch_self (hm : 1 ≤ m) : evidenceMatch h source m evidence = some m ↔ Named h source evidence m m := by
  refine ⟨evidenceMatch_named hm, fun hnamed => ?_⟩
  rw [evidenceMatch_eq hm]
  refine firstBest_of_best ((mem_allMatches hm).mpr hnamed) fun y _ hne => ?_
  simp only [closer, distance]
  refine ⟨?_, ?_⟩
  · simp
    omega
  · simp
    omega

/-- An evidence list is anchored around a citation. -/
structure Anchors (h : Host) (source : Text) (evidence : List Json) (cited : Nat) : Prop where
  /-- a line of the file, near the citation, that is a quoted line -/
  sound : ∀ m, evidenceMatch h source cited evidence = some m →
    Near cited m ∧ ∃ x ∈ evidenceLines evidence, LineAt (sourceLines source) m x
  /-- no line when no block and no line of its own is in the window -/
  complete : evidenceMatch h source cited evidence = none ↔
    (¬∃ a b, BlockAt h (sourceLines source) (evidenceLines evidence) a b ∧ Near cited a ∧ Near cited b) ∧
      ¬∃ a, UniqueAt h (sourceLines source) (evidenceLines evidence) a ∧ Near cited a
  /-- the same line from there, unless the block found is longer than the window below it -/
  stable : ∀ m, evidenceMatch h source cited evidence = some m → (evidenceMatch h source m evidence = some m ↔
    UniqueAt h (sourceLines source) (evidenceLines evidence) m ∨
      ∃ b, BlockAt h (sourceLines source) (evidenceLines evidence) m b ∧ b ≤ m + 15)

theorem evidenceMatch_anchors (h : Host) (source : Text) (evidence : List Json) {cited : Nat} (hcited : 1 ≤ cited) :
    Anchors h source evidence cited := by
  refine ⟨fun m hm => ?_, ?_, fun m hm => ?_⟩
  · obtain ⟨hnear, hunique | ⟨b, hblock, -⟩⟩ := evidenceMatch_named hcited hm
    · obtain ⟨x, hx, -, hline, -⟩ := hunique.quotes
      exact ⟨hnear, x, hx, hline⟩
    · obtain ⟨x, y, hquoted, -, -, hline, -⟩ := hblock.quotes
      exact ⟨hnear, x, hquoted.subset List.mem_cons_self, hline⟩
  · rw [evidenceMatch_eq hcited, firstBest_eq_none, List.eq_nil_iff_forall_not_mem]
    simp only [mem_allMatches hcited, Named]
    constructor
    · intro hnone
      exact ⟨fun ⟨a, b, hblock, ha, hb⟩ => hnone a ⟨ha, .inr ⟨b, hblock, hb⟩⟩,
        fun ⟨a, hunique, ha⟩ => hnone a ⟨ha, .inl hunique⟩⟩
    · rintro ⟨hblocks, huniques⟩ a ⟨ha, hunique | ⟨b, hblock, hb⟩⟩
      · exact huniques ⟨a, hunique, ha⟩
      · exact hblocks ⟨a, b, hblock, ha, hb⟩
  · have hpos : 1 ≤ m := by
      obtain ⟨-, hunique | ⟨b, hblock, -⟩⟩ := evidenceMatch_named hcited hm
      · obtain ⟨x, -, -, hline, -⟩ := hunique.quotes
        exact hline.1
      · obtain ⟨x, y, -, -, -, hline, -⟩ := hblock.quotes
        exact hline.1
    rw [evidenceMatch_self hpos, Named]
    constructor
    · rintro ⟨-, hunique | ⟨b, hblock, -, hb⟩⟩
      · exact .inl hunique
      · exact .inr ⟨b, hblock, hb⟩
    · rintro (hunique | ⟨b, hblock, hb⟩)
      · exact ⟨⟨by omega, by omega⟩, .inl hunique⟩
      · have hlt := hblock.lt
        exact ⟨⟨by omega, by omega⟩, .inr ⟨b, hblock, by omega, hb⟩⟩

end Main

section Example

def asciiHost : Host where
  sha256 := id
  isAlnum := Char.isAlphanum
  lower := fun text => text.map Char.toLower
  str := fun _ => []
  int := fun _ => .error (.caught "invalid literal for int() with base 10".toList)

/-- Two lines with 29 blank ones between them. -/
def spacedSource : Text := "let total = 0;".toList ++ List.replicate 30 '\n' ++ "return total;\n".toList

def spacedEvidence : List Json := [.str "let total = 0;\nreturn total;".toList]

theorem evidenceMatch_anchors_spaced : Anchors asciiHost spacedSource spacedEvidence 16 :=
  evidenceMatch_anchors _ _ _ (by decide)

/-- A block as long as the window is not found again from its first line, and lines without a letter or a digit are
never found. -/
theorem long_block_and_brace_lines :
    (evidenceMatch asciiHost spacedSource 16 spacedEvidence = some 1 ∧
      evidenceMatch asciiHost spacedSource 1 spacedEvidence = none) ∧
    (sourceLines "\x7b\n\x7d\n".toList = evidenceLines [.str "\x7b\n\x7d".toList] ∧
      evidenceMatch asciiHost "\x7b\n\x7d\n".toList 1 [.str "\x7b\n\x7d".toList] = none) ∧
    (sourceLines (List.replicate 40 '-') = evidenceLines [.str (List.replicate 40 '-')] ∧
      evidenceMatch asciiHost (List.replicate 40 '-') 1 [.str (List.replicate 40 '-')] = none) := by
  decide

end Example

end Review
end CodeSage
