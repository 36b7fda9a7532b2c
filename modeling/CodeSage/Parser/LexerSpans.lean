import CodeSage.Parser.DirectiveExtent

/-!
# CodeSage.Parser.LexerSpans

The tokens of a source and what stands between them make up the source: a token is never empty, no two of them meet, and
outside of them there are only white space and comments.
-/

namespace CodeSage
namespace Parser

variable {src rest : Bytes} {b : UInt8}

section Lengths

theorem skipQuoted_le (quote : UInt8) (h : src ≠ []) : 1 ≤ skipQuoted quote src ∧ skipQuoted quote src ≤ src.length := by
  cases src with
  | nil => exact absurd rfl h
  | cons b rest =>
    have := quotedBody_le quote rest
    rw [skipQuoted, List.drop_succ_cons, List.drop_zero, List.length_cons]
    omega

theorem skipRawString_le (h : src ≠ []) : skipRawString src ≤ src.length := by
  rw [skipRawString]
  dsimp only
  split
  · exact (skipQuoted_le _ h).2
  · rename_i opening hopening
    split
    · rename_i p hp
      have hfound := (List.findIdx?_eq_some_iff_findIdx_eq.mp hopening).1
      have hplace := position_le hp
      simp only [List.length_drop, List.length_take, List.length_cons, List.length_append, List.length_nil] at hfound hplace ⊢
      omega
    · exact Nat.le_refl _

theorem skipNumber_le (before : UInt8) (src : Bytes) : skipNumber before src ≤ src.length := by
  induction src generalizing before with
  | nil => exact Nat.le_refl 0
  | cons b rest ih =>
    have := ih b
    rw [skipNumber, List.length_cons]
    split <;> omega

/-- A number has a digit or a point at its front. -/
theorem skipNumber_pos {before : UInt8} (h : isDigit b = true ∨ b = byte '.') : 1 ≤ skipNumber before (b :: rest) := by
  have hread : (isAlphanumeric b || [byte '_', byte '.', byte '\''].contains b) = true := by
    rcases h with h | rfl
    · simp [isAlphanumeric, h]
    · decide
  rw [skipNumber, hread, Bool.true_or, if_pos rfl]
  exact Nat.le_add_right _ _

theorem skipDirective_le (pass : Nat) (src : Bytes) : skipDirective pass src ≤ src.length := by
  induction src generalizing pass with
  | nil => simp [skipDirective]
  | cons b rest ih =>
    cases pass with
    | succ pass =>
      have := ih pass
      rw [skipDirective, List.length_cons]
      omega
    | zero =>
      rw [skipDirective, List.length_cons]
      split
      · exact Nat.zero_le _
      · split
        · have := ih (Option.getD (spliceLen (b :: rest)) 1 - 1)
          rename_i length hlength
          have := ih (length - 1)
          omega
        · split
          · have := ih (skipBlockComment (b :: rest) - 1)
            omega
          · split
            · have := skipLine_le (b :: rest)
              rwa [List.length_cons] at this
            · have := ih 0
              omega

theorem skipDirective_hash (rest : Bytes) : 1 ≤ skipDirective 0 (byte '#' :: rest) := by
  have hsplice : spliceLen (byte '#' :: rest) = none := spliceLen_other (by decide)
  rw [skipDirective, if_neg (by decide), hsplice]
  dsimp only
  rw [if_neg (startsWith_other rest (by decide)), if_neg (startsWith_other rest (by decide))]
  omega

theorem isIdent_of_isIdentStart (h : isIdentStart b = true) : isIdent b = true := by
  simp only [isIdentStart, isIdent, isAlphanumeric, Bool.or_eq_true] at h ⊢
  tauto

theorem scanWord_le (h : isIdentStart b = true) : 1 ≤ (scanWord (b :: rest)).2 ∧ (scanWord (b :: rest)).2 ≤ (b :: rest).length := by
  have hident := isIdent_of_isIdentStart h
  have hpos : 1 ≤ ((b :: rest).takeWhile isIdent).length := by simp [hident]
  have hsplit : ((b :: rest).takeWhile isIdent).length + ((b :: rest).dropWhile isIdent).length = (b :: rest).length := by
    rw [← List.length_append, List.takeWhile_append_dropWhile]
  rw [scanWord]
  split
  · rename_i hraw
    have hne : (b :: rest).dropWhile isIdent ≠ [] := by
      rintro hnil
      rw [hnil, isRawPrefix] at hraw
      cases hraw
    have := skipRawString_le hne
    dsimp only
    omega
  · dsimp only
    omega

/-- A token takes at least one byte, and none behind the end. -/
theorem scanToken_le (lineStart : Bool) (before b : UInt8) (rest : Bytes) :
    1 ≤ (scanToken lineStart before b rest).2 ∧ (scanToken lineStart before b rest).2 ≤ (b :: rest).length := by
  rw [scanToken]
  split
  · rename_i hhash
    obtain rfl := of_decide_eq_true ((Bool.and_eq_true _ _).mp hhash).1
    exact ⟨skipDirective_hash rest, skipDirective_le 0 _⟩
  · split
    · exact skipQuoted_le _ (List.cons_ne_nil _ _)
    · split
      · exact skipQuoted_le _ (List.cons_ne_nil _ _)
      · split
        · rename_i hnumber
          refine ⟨skipNumber_pos ?_, skipNumber_le before _⟩
          simp only [Bool.or_eq_true, Bool.and_eq_true, decide_eq_true_eq] at hnumber
          exact hnumber.imp_right And.left
        · split
          · exact scanWord_le ‹_›
          · split
            · rename_i hscope
              obtain ⟨-, more, rfl⟩ := startsWith_two.mp hscope
              simp
            · simp

end Lengths

section Tiles

/-- White space and comments that have come to their end. -/
inductive Gap : Bytes → Prop where
  | nil : Gap []
  | space {b : UInt8} {rest : Bytes} (space : b = byte '\n' ∨ isWhitespace b = true) (gap : Gap rest) : Gap (b :: rest)
  | line {comment rest : Bytes} (starts : startsWith ['/', '/'] comment = true) (inside : byte '\n' ∉ comment) (gap : Gap rest) :
    Gap (comment ++ byte '\n' :: rest)
  | block {comment rest : Bytes} {p : Nat} (starts : startsWith ['/', '*'] comment = true)
    (closes : position [byte '*', byte '/'] (comment.drop 2) = some p) (length : comment.length = 2 + p + 2) (gap : Gap rest) :
    Gap (comment ++ rest)

/-- Nothing, or a comment the source ends in. -/
inductive Tail : Bytes → Prop where
  | nil : Tail []
  | line {comment : Bytes} (starts : startsWith ['/', '/'] comment = true) (inside : byte '\n' ∉ comment) : Tail comment
  | block {comment : Bytes} (starts : startsWith ['/', '*'] comment = true)
    (unclosed : position [byte '*', byte '/'] (comment.drop 2) = none) : Tail comment

/-- The tokens are the source from `i` on, but for what stands between them. -/
inductive Tiled : Nat → Bytes → List Token → Prop where
  | nil {i : Nat} {gap tail : Bytes} (gap_ : Gap gap) (tail_ : Tail tail) : Tiled i (gap ++ tail) []
  | cons {i : Nat} {gap text rest : Bytes} {token : Token} {tokens : List Token} (gap_ : Gap gap) (nonempty : text ≠ [])
    (start : token.start = i + gap.length) (stop : token.stop = token.start + text.length) (tiled : Tiled token.stop rest tokens) :
    Tiled i (gap ++ text ++ rest) (token :: tokens)

variable {i : Nat} {tokens : List Token}

theorem Tiled.behind {gap : Bytes} (h : Tiled (i + gap.length) rest tokens) (hgap : ∀ more, Gap more → Gap (gap ++ more)) :
    Tiled i (gap ++ rest) tokens := by
  cases h with
  | nil gap_ tail_ =>
    rw [← List.append_assoc]
    exact .nil (hgap _ gap_) tail_
  | cons gap_ nonempty start stop tiled =>
    rw [← List.append_assoc, ← List.append_assoc]
    exact .cons (hgap _ gap_) nonempty (by rw [start, List.length_append, Nat.add_assoc]) stop tiled

/-- The bytes to pass unseen are passed. -/
theorem lexFrom_pass {pass : Nat} (h : pass ≤ src.length) (i : Nat) (lineStart : Bool) (before : UInt8) :
    ∃ before', lexFrom i lineStart before pass src = lexFrom (i + pass) lineStart before' 0 (src.drop pass) := by
  induction src generalizing pass i before with
  | nil =>
    rw [List.length_nil, Nat.le_zero] at h
    exact ⟨before, by rw [h]; rfl⟩
  | cons b rest ih =>
    cases pass with
    | zero => exact ⟨before, rfl⟩
    | succ pass =>
      obtain ⟨before', hbehind⟩ := ih (Nat.le_of_succ_le_succ h) (i + 1) b
      exact ⟨before', by rw [lexFrom, hbehind, List.drop_succ_cons, Nat.add_assoc, Nat.add_comm 1]⟩

theorem lexFrom_cons {length : Nat} (hpos : 1 ≤ length) (hle : length ≤ (b :: rest).length) (i : Nat) (lineStart : Bool) :
    ∃ before', lexFrom (i + 1) lineStart b (length - 1) rest =
      lexFrom (i + length) lineStart before' 0 ((b :: rest).drop length) := by
  obtain ⟨length, rfl⟩ : ∃ length', length = length' + 1 := ⟨length - 1, by omega⟩
  obtain ⟨before', hbehind⟩ := lexFrom_pass (Nat.le_of_succ_le_succ hle) (i + 1) lineStart b
  exact ⟨before', by rw [Nat.add_sub_cancel, hbehind, List.drop_succ_cons, Nat.add_assoc, Nat.add_comm 1]⟩

/-- What was found is found in the bytes up to its end. -/
theorem position_take {needle : Bytes} {p : Nat} (h : position needle src = some p) (hne : needle ≠ []) :
    position needle (src.take (p + needle.length)) = some p := by
  induction src generalizing p with
  | nil => cases h
  | cons b rest ih =>
    obtain ⟨n, hn⟩ : ∃ n, needle.length = n + 1 := ⟨needle.length - 1, by have := List.length_pos_iff.mpr hne; omega⟩
    rw [position] at h
    split at h
    · rename_i hprefix
      cases h
      obtain ⟨more, hmore⟩ := List.isPrefixOf_iff_prefix.mp hprefix
      have htake : (b :: rest).take needle.length = needle := by rw [← hmore, List.take_left]
      rw [Nat.zero_add, htake]
      cases needle with
      | nil => exact absurd rfl hne
      | cons c needle => rw [position, if_pos (by simp)]
    · rename_i hprefix
      obtain ⟨p', hp', rfl⟩ := Option.map_eq_some_iff.mp h
      have hnot : ¬needle.isPrefixOf (b :: rest.take (p' + needle.length)) = true := by
        intro hpre
        refine hprefix (List.isPrefixOf_iff_prefix.mpr ?_)
        have := List.isPrefixOf_iff_prefix.mp hpre
        exact this.trans (List.cons_prefix_cons.mpr ⟨rfl, List.take_prefix _ _⟩)
      rw [Nat.add_right_comm, List.take_succ_cons, position, if_neg hnot, ih hp']
      rfl

theorem skipLine_split (src : Bytes) : ∃ comment more, src = comment ++ more ∧ byte '\n' ∉ comment ∧
    skipLine src = comment.length ∧ (more = [] ∨ ∃ behind, more = byte '\n' :: behind) := by
  refine ⟨src.takeWhile (· ≠ byte '\n'), src.dropWhile (· ≠ byte '\n'), List.takeWhile_append_dropWhile.symm, ?_, rfl, ?_⟩
  · intro hmem
    have hall := List.all_takeWhile (p := fun b => decide (b ≠ byte '\n')) (l := src)
    simpa using List.all_eq_true.mp hall _ hmem
  · cases hmore : src.dropWhile fun b => decide (b ≠ byte '\n') with
    | nil => exact Or.inl rfl
    | cons c behind =>
      have hc := List.head_dropWhile_not (fun b => decide (b ≠ byte '\n')) (l := src) (by rw [hmore]; exact List.cons_ne_nil _ _)
      simp only [hmore, List.head_cons, decide_eq_false_iff_not, not_not] at hc
      exact Or.inr ⟨behind, by rw [hc]⟩

/-- The bytes behind the first ones, as the lexer goes over them. -/
def TiledBehind (src : Bytes) : Prop :=
  ∀ {length : Nat}, 1 ≤ length → length ≤ src.length → ∀ (i : Nat) (lineStart : Bool) (before : UInt8),
    Tiled i (src.drop length) (lexFrom i lineStart before 0 (src.drop length))

theorem tiled_line (hline : startsWith ['/', '/'] (b :: rest) = true) (hshorter : TiledBehind (b :: rest)) (i : Nat) (lineStart : Bool) :
    Tiled i (b :: rest) (lexFrom (i + 1) lineStart b (skipLine (b :: rest) - 1) rest) := by
  obtain ⟨comment, more, hsrc, hinside, hlength, hmore⟩ := skipLine_split (b :: rest)
  have hstarts : startsWith ['/', '/'] comment = true := by
    obtain ⟨rfl, behind, rfl⟩ := startsWith_two.mp hline
    cases comment with
    | nil =>
      rcases hmore with rfl | ⟨behind', rfl⟩
      · cases hsrc
      · injection hsrc with h
        exact absurd h (by decide)
    | cons c comment =>
      injection hsrc with hc hsrc
      cases comment with
      | nil =>
        rcases hmore with rfl | ⟨behind', rfl⟩
        · cases hsrc
        · injection hsrc with h
          exact absurd h (by decide)
      | cons d comment =>
        injection hsrc with hd hsrc
        exact startsWith_two.mpr ⟨hc.symm, comment, by rw [hd]⟩
  have hpos : 1 ≤ comment.length := by
    obtain ⟨more', hmore'⟩ := startsWith_iff.mp hstarts
    simp [hmore']
  have hle : comment.length ≤ (b :: rest).length := by rw [hsrc, List.length_append]; exact Nat.le_add_right _ _
  obtain ⟨before', hbehind⟩ := lexFrom_cons hpos hle i lineStart
  have hdrop : (b :: rest).drop comment.length = more := by rw [hsrc, List.drop_left]
  rw [hlength, hbehind, hdrop, hsrc]
  rcases hmore with rfl | ⟨behind, rfl⟩
  · rw [List.append_nil]
    exact @Tiled.nil i [] comment .nil (.line hstarts hinside)
  · have hnext : (b :: rest).drop (comment.length + 1) = behind := by rw [hsrc]; simp
    have htiled := @hshorter (comment.length + 1) (by omega) (by rw [hsrc]; simp) (i + comment.length + 1) true (byte '\n')
    rw [hnext] at htiled
    rw [lexFrom, if_pos rfl, ← List.singleton_append, ← List.append_assoc]
    refine Tiled.behind (by simpa [Nat.add_assoc] using htiled) fun gap hgap => ?_
    rw [List.append_assoc, List.singleton_append]
    exact .line hstarts hinside hgap

theorem tiled_block (hblock : startsWith ['/', '*'] (b :: rest) = true) (hshorter : TiledBehind (b :: rest)) (i : Nat) (lineStart : Bool) :
    Tiled i (b :: rest) (lexFrom (i + 1) lineStart b (skipBlockComment (b :: rest) - 1) rest) := by
  obtain ⟨htwo, hle⟩ := skipBlockComment_le hblock
  obtain ⟨before', hbehind⟩ := lexFrom_cons (Nat.le_of_succ_le htwo) hle i lineStart
  have htiled := hshorter (Nat.le_of_succ_le htwo) hle (i + skipBlockComment (b :: rest)) lineStart before'
  rw [hbehind]
  cases hclose : position [byte '*', byte '/'] ((b :: rest).drop 2) with
  | none =>
    have hall : skipBlockComment (b :: rest) = (b :: rest).length := by rw [skipBlockComment, hclose]
    rw [hall, List.drop_length]
    exact @Tiled.nil i [] _ .nil (.block hblock hclose)
  | some p =>
    have hlength : skipBlockComment (b :: rest) = 2 + p + 2 := by rw [skipBlockComment, hclose]
    obtain ⟨rfl, more, rfl⟩ := startsWith_two.mp hblock
    have htake : ((byte '/' :: byte '*' :: more).take (2 + p + 2)).length = 2 + p + 2 := by
      rw [List.length_take, Nat.min_eq_left (hlength ▸ hle)]
    have hdrop : ((byte '/' :: byte '*' :: more).take (2 + p + 2)).drop 2 = more.take (p + 2) := by
      rw [show 2 + p + 2 = p + 2 + 1 + 1 by omega, List.take_succ_cons, List.take_succ_cons, List.drop_succ_cons,
        List.drop_succ_cons, List.drop_zero]
    rw [hlength] at htiled ⊢
    rw [← List.take_append_drop (2 + p + 2) (byte '/' :: byte '*' :: more), List.drop_left' htake]
    refine Tiled.behind (by rwa [htake]) fun gap hgap => .block ?_ ?_ htake hgap
    · rw [show 2 + p + 2 = p + 2 + 1 + 1 by omega, List.take_succ_cons, List.take_succ_cons]
      exact startsWith_two.mpr ⟨rfl, _, rfl⟩
    · rw [hdrop]
      exact position_take hclose (List.cons_ne_nil _ _)

theorem tiled_lexFrom (i : Nat) (lineStart : Bool) (before : UInt8) (src : Bytes) : Tiled i src (lexFrom i lineStart before 0 src) := by
  induction hn : src.length using Nat.strongRecOn generalizing i lineStart before src with
  | ind n ih =>
    cases src with
    | nil => exact @Tiled.nil i [] [] .nil .nil
    | cons b rest =>
      -- every branch reads some bytes and goes on behind them
      have hshorter : TiledBehind (b :: rest) := by
        intro length hpos hle i lineStart before
        refine ih _ ?_ i lineStart before _ rfl
        rw [← hn, List.length_drop]
        omega
      rw [lexFrom]
      split
      · rename_i hbreak
        exact @Tiled.behind rest i _ [b] (hshorter (Nat.le_refl 1) (by simp) _ _ _) fun more hmore => .space (Or.inl hbreak) hmore
      · split
        · rename_i hspace
          exact @Tiled.behind rest i _ [b] (hshorter (Nat.le_refl 1) (by simp) _ _ _) fun more hmore => .space (Or.inr hspace) hmore
        · split
          · rename_i hline
            exact tiled_line hline hshorter i lineStart
          · split
            · rename_i hblock
              exact tiled_block hblock hshorter i lineStart
            · obtain ⟨hpos, hle⟩ := scanToken_le lineStart before b rest
              obtain ⟨before', hbehind⟩ := lexFrom_cons hpos hle i false
              dsimp only
              rw [hbehind]
              have htext : ((b :: rest).take (scanToken lineStart before b rest).2).length = (scanToken lineStart before b rest).2 := by
                rw [List.length_take, Nat.min_eq_left hle]
              have htiled := @Tiled.cons i [] ((b :: rest).take (scanToken lineStart before b rest).2) _
                ⟨(scanToken lineStart before b rest).1, i, i + (scanToken lineStart before b rest).2⟩ _ .nil
                (List.length_pos_iff.mp (by rw [htext]; exact hpos)) rfl (by rw [htext])
                (hshorter hpos hle (i + (scanToken lineStart before b rest).2) false before')
              rwa [List.nil_append, List.take_append_drop] at htiled

/-- Tokens and gaps make up the source. -/
theorem tiled_tokenize (src : Bytes) : Tiled 0 src (tokenize src) := tiled_lexFrom 0 true 0 src

theorem Tiled.within (h : Tiled i src tokens) : ∀ token ∈ tokens, i ≤ token.start ∧ token.start < token.stop ∧ token.stop ≤ i + src.length := by
  induction h with
  | nil => simp
  | @cons i gap text rest token tokens gap_ nonempty start stop tiled ih =>
    have hpos := List.length_pos_iff.mpr nonempty
    rw [List.length_append, List.length_append]
    intro other hmem
    rcases List.mem_cons.mp hmem with rfl | hmem
    · omega
    · have := ih other hmem
      omega

theorem Tiled.increasing (h : Tiled i src tokens) : tokens.Pairwise fun first second => first.stop ≤ second.start := by
  induction h with
  | nil => exact List.Pairwise.nil
  | cons _ _ _ _ tiled ih => exact List.pairwise_cons.mpr ⟨fun other hmem => (tiled.within other hmem).1, ih⟩

end Tiles

end Parser
end CodeSage
