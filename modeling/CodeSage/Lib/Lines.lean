import CodeSage.Lib.Text

/-!
# CodeSage.Lib.Lines

A text cut into its lines. `pieces` keeps the line endings, `lines` drops them.

A list of texts is `Cut` when it can be the pieces of a text; such a list is determined by the text it makes
up, so that two texts given piece by piece are compared piece by piece.
-/

namespace Lib

/-- `split_inclusive('\n')` -/
def pieces : Text → List Text
  | [] => []
  | c :: s =>
    if c = '\n' then [c] :: pieces s
    else
      match pieces s with
      | [] => [[c]]
      | p :: ps => (c :: p) :: ps

/-- A piece without its ending, `\n` or `\r\n`. -/
def chomp (p : Text) : Text :=
  if p.getLast? = some '\n' then
    if p.dropLast.getLast? = some '\r' then p.dropLast.dropLast else p.dropLast
  else p

/-- `str::lines` -/
def lines (s : Text) : List Text := (pieces s).map chomp

/-- A piece with the ending `\n` for `\r\n`. -/
def unixPiece (p : Text) : Text := if p.getLast? = some '\n' then chomp p ++ ['\n'] else p

inductive Cut : List Text → Prop where
  | nil : Cut []
  | last {l : Text} (hne : l ≠ []) (h : '\n' ∉ l) : Cut [l]
  | cons {l : Text} {ps : List Text} (h : '\n' ∉ l) (hps : Cut ps) : Cut ((l ++ ['\n']) :: ps)

theorem pieces_line {l : Text} (h : '\n' ∉ l) (t : Text) : pieces (l ++ '\n' :: t) = (l ++ ['\n']) :: pieces t := by
  induction l with
  | nil => simp [pieces]
  | cons c l ih =>
    rw [List.mem_cons, not_or] at h
    rw [List.cons_append, pieces, if_neg (Ne.symm h.1), ih h.2]
    rfl

theorem pieces_last {l : Text} (hne : l ≠ []) (h : '\n' ∉ l) : pieces l = [l] := by
  induction l with
  | nil => exact absurd rfl hne
  | cons c l ih =>
    rw [List.mem_cons, not_or] at h
    rw [pieces, if_neg (Ne.symm h.1)]
    cases l with
    | nil => rfl
    | cons d l => rw [ih (by simp) h.2]

/-- Pieces that are cut properly are those of the text they make up. -/
theorem Cut.pieces_flatten {ps : List Text} (h : Cut ps) : pieces ps.flatten = ps := by
  induction h with
  | nil => rfl
  | last hne h =>
    rw [List.flatten_singleton]
    exact pieces_last hne h
  | cons h hps ih => rw [List.flatten_cons, List.append_assoc, List.singleton_append, pieces_line h, ih]

theorem Cut.flatten_inj {ps qs : List Text} (hp : Cut ps) (hq : Cut qs) (h : ps.flatten = qs.flatten) : ps = qs := by
  rw [← hp.pieces_flatten, h, hq.pieces_flatten]

theorem cut_pieces (s : Text) : Cut (pieces s) := by
  induction s with
  | nil => exact .nil
  | cons c s ih =>
    rw [pieces]
    split
    · rename_i hc
      rw [hc]
      exact .cons (l := []) (by simp) ih
    · rename_i hc
      generalize pieces s = ps at ih
      cases ih with
      | nil => exact .last (by simp) (by simpa using Ne.symm hc)
      | last hne h => exact .last (by simp) (by simpa [h] using Ne.symm hc)
      | cons h hps => exact .cons (l := c :: _) (by simpa [h] using Ne.symm hc) hps

theorem flatten_pieces (s : Text) : (pieces s).flatten = s := by
  induction s with
  | nil => rfl
  | cons c s ih =>
    rw [pieces]
    split
    · rw [List.flatten_cons, ih]
      rfl
    · cases hp : pieces s with
      | nil =>
        rw [hp] at ih
        rw [← ih]
        rfl
      | cons p ps =>
        rw [hp] at ih
        rw [← ih]
        rfl

/-- Pieces that all end a line stay apart from what follows. -/
theorem pieces_append {s : Text} (h : s = [] ∨ s.getLast? = some '\n') (t : Text) :
    pieces (s ++ t) = pieces s ++ pieces t := by
  have hcut : ∀ ps, Cut ps → (ps.flatten = [] ∨ ps.flatten.getLast? = some '\n') →
      pieces (ps.flatten ++ t) = ps ++ pieces t := by
    intro ps hps
    induction hps with
    | nil => exact fun _ => rfl
    | last hne hmem =>
      rw [List.flatten_singleton]
      rintro (hnil | hlast)
      · exact absurd hnil hne
      · exact absurd (List.mem_of_getLast? hlast) hmem
    | @cons l ps hmem hps ih =>
      intro hend
      have hps' : ps.flatten = [] ∨ ps.flatten.getLast? = some '\n' := by
        by_cases hnil : ps.flatten = []
        · exact Or.inl hnil
        · rw [List.flatten_cons, List.getLast?_append_of_ne_nil _ hnil] at hend
          rcases hend with hend | hend
          · simp at hend
          · exact Or.inr hend
      rw [List.flatten_cons, List.append_assoc, List.append_assoc, List.singleton_append, pieces_line hmem, ih hps',
        List.cons_append]
  have := hcut (pieces s) (cut_pieces s) (by rwa [flatten_pieces])
  rwa [flatten_pieces] at this

/-- Lines put together again. -/
theorem pieces_intercalate {l : Text} {ls : List Text} (h : ∀ m ∈ l :: ls, '\n' ∉ m) :
    pieces (['\n'].intercalate (l :: ls) ++ ['\n']) = (l :: ls).map (· ++ ['\n']) := by
  induction ls generalizing l with
  | nil =>
    rw [List.intercalate_singleton, pieces_line (h l List.mem_cons_self)]
    rfl
  | cons m ls ih =>
    rw [List.intercalate_cons_cons, List.append_assoc, List.append_assoc, List.singleton_append,
      pieces_line (h l List.mem_cons_self), ih fun n hn => h n (List.mem_cons_of_mem _ hn)]
    rfl

theorem chomp_line {l : Text} : chomp (l ++ ['\n']) = if l.getLast? = some '\r' then l.dropLast else l := by
  simp [chomp]

theorem unixPiece_line {l : Text} : unixPiece (l ++ ['\n']) = chomp (l ++ ['\n']) ++ ['\n'] := by
  simp [unixPiece]

theorem unixPiece_last {l : Text} (h : '\n' ∉ l) : unixPiece l = l := by
  rw [unixPiece, if_neg fun hlast => h (List.mem_of_getLast? hlast)]

/-- A piece without `\r\n` has the ending `\n` already. -/
theorem unixPiece_eq_self_iff {l : Text} : unixPiece (l ++ ['\n']) = l ++ ['\n'] ↔ l.getLast? ≠ some '\r' := by
  rw [unixPiece_line, chomp_line]
  split
  · rename_i hlast
    refine ⟨fun h => ?_, fun h => absurd hlast h⟩
    have hlen := congrArg List.length (List.append_cancel_right h)
    have hne : l ≠ [] := by
      rintro rfl
      cases hlast
    have := List.length_pos_of_ne_nil hne
    rw [List.length_dropLast] at hlen
    omega
  · rename_i hlast
    exact ⟨fun _ => hlast, fun _ => rfl⟩

theorem length_unixPiece_le (p : Text) : (unixPiece p).length ≤ p.length ∧ p.length ≤ (unixPiece p).length + 1 := by
  rw [unixPiece]
  split
  · rename_i hlast
    have hne : p ≠ [] := by
      rintro rfl
      cases hlast
    have hpos := List.length_pos_of_ne_nil hne
    rw [chomp, if_pos hlast, List.length_append, List.length_singleton]
    split
    · rename_i hcr
      have hcrne : p.dropLast ≠ [] := by
        intro hnil
        rw [hnil] at hcr
        cases hcr
      have := List.length_pos_of_ne_nil hcrne
      rw [List.length_dropLast] at this
      rw [List.length_dropLast, List.length_dropLast]
      omega
    · rw [List.length_dropLast]
      omega
  · omega

theorem crlf_infix_line {l : Text} (h : '\n' ∉ l) (t : Text) :
    ['\r', '\n'] <:+: l ++ '\n' :: t ↔ l.getLast? = some '\r' ∨ ['\r', '\n'] <:+: t := by
  induction l with
  | nil =>
    rw [List.nil_append, List.infix_cons_iff, List.cons_prefix_cons]
    simp
  | cons c l ih =>
    rw [List.mem_cons, not_or] at h
    rw [List.cons_append, List.infix_cons_iff, List.cons_prefix_cons, ih h.2]
    cases l with
    | nil => simp [eq_comm]
    | cons d l =>
      have hd : '\n' ≠ d := fun heq => h.2 (heq ▸ List.mem_cons_self)
      simp [List.cons_prefix_cons, hd]

/-- No line ends in `\r\n`. -/
theorem unixPiece_pieces_iff (s : Text) : (∀ p ∈ pieces s, unixPiece p = p) ↔ ¬['\r', '\n'] <:+: s := by
  have hcut : ∀ ps, Cut ps → ((∀ p ∈ ps, unixPiece p = p) ↔ ¬['\r', '\n'] <:+: ps.flatten) := by
    intro ps hps
    induction hps with
    | nil => simp
    | @last l hne h =>
      have hnot : ¬['\r', '\n'] <:+: l := fun hin => h (hin.subset (by simp))
      simpa [unixPiece_last h] using hnot
    | @cons l ps h hps ih =>
      rw [List.forall_mem_cons, unixPiece_eq_self_iff, ih, List.flatten_cons, List.append_assoc, List.singleton_append,
        crlf_infix_line h, not_or]
  have := hcut (pieces s) (cut_pieces s)
  rwa [flatten_pieces] at this

/-- The first of a list of pieces is the last line, without an ending, or a line with its ending. -/
theorem Cut.cons_cases {p : Text} {ps : List Text} (h : Cut (p :: ps)) :
    (ps = [] ∧ p ≠ [] ∧ '\n' ∉ p) ∨ ∃ l, p = l ++ ['\n'] ∧ '\n' ∉ l ∧ Cut ps := by
  cases h with
  | last hne h => exact Or.inl ⟨rfl, hne, h⟩
  | @cons l _ h hps => exact Or.inr ⟨l, rfl, h, hps⟩

/-- Pieces with texts put in front of them. -/
theorem Cut.map_prefix {qs : List (Text × Text)} (h : Cut (qs.map Prod.snd)) (hfst : ∀ q ∈ qs, '\n' ∉ q.1) :
    Cut (qs.map fun q => q.1 ++ q.2) := by
  induction qs with
  | nil => exact .nil
  | cons q qs ih =>
    have hq := hfst q List.mem_cons_self
    obtain ⟨pre, p⟩ := q
    rcases h.cons_cases with ⟨hnil, hne, hmem⟩ | ⟨l, rfl, hmem, hps⟩
    · rw [List.map_eq_nil_iff.mp hnil]
      exact .last (by simp [hne]) (by simp [hq, hmem])
    · have hline : '\n' ∉ pre ++ l := fun h => (List.mem_append.mp h).elim hq hmem
      have := Cut.cons hline (ih hps fun r hr => hfst r (List.mem_cons_of_mem _ hr))
      rwa [List.append_assoc] at this

theorem Cut.map_unixPiece {ps : List Text} (h : Cut ps) : Cut (ps.map unixPiece) := by
  induction h with
  | nil => exact .nil
  | last hne h =>
    rw [List.map_singleton, unixPiece_last h]
    exact .last hne h
  | @cons l ps h hps ih =>
    rw [List.map_cons, unixPiece_line, chomp_line]
    refine .cons ?_ ih
    split
    · exact fun hmem => h (List.dropLast_subset l hmem)
    · exact h

/-- Every line with an ending of its own, and the last one taken off again where the text has none. -/
theorem flatMap_chomp {qs : List (Text × Text)} (h : Cut (qs.map Prod.snd)) (hne : qs ≠ []) :
    (if (qs.map Prod.snd).flatten.getLast? = some '\n' then qs.flatMap fun q => q.1 ++ chomp q.2 ++ ['\n']
      else (qs.flatMap fun q => q.1 ++ chomp q.2 ++ ['\n']).dropLast) = qs.flatMap fun q => q.1 ++ unixPiece q.2 := by
  induction qs with
  | nil => exact absurd rfl hne
  | cons q qs ih =>
    obtain ⟨pre, p⟩ := q
    rcases h.cons_cases with ⟨hnil, hpne, hmem⟩ | ⟨l, rfl, hmem, hps⟩
    · have hlast : p.getLast? ≠ some '\n' := fun hlast => hmem (List.mem_of_getLast? hlast)
      rw [List.map_eq_nil_iff.mp hnil]
      simp [hlast, chomp, unixPiece]
    · have hpre : pre ++ chomp (l ++ ['\n']) ++ ['\n'] = pre ++ unixPiece (l ++ ['\n']) := by
        rw [unixPiece_line, List.append_assoc]
      cases qs with
      | nil => simp [unixPiece_line]
      | cons r qs =>
        have hne' : ((r :: qs).map Prod.snd).flatten ≠ [] := by
          rcases Cut.cons_cases hps with ⟨-, hrne, -⟩ | ⟨m, hr, -, -⟩
          · simp [hrne]
          · simp [hr]
        have hout : (r :: qs).flatMap (fun q => q.1 ++ chomp q.2 ++ ['\n']) ≠ [] := by simp
        have hhead : ∀ f : Text × Text → Text, ((pre, l ++ ['\n']) :: r :: qs).flatMap f =
            f (pre, l ++ ['\n']) ++ (r :: qs).flatMap f := fun _ => List.flatMap_cons
        rw [List.map_cons, List.flatten_cons, List.getLast?_append_of_ne_nil _ hne', hhead, hhead, ← ih hps (by simp)]
        split
        · exact congrArg (· ++ _) hpre
        · rw [List.dropLast_append_of_ne_nil hout]
          exact congrArg (· ++ _) hpre

end Lib
