import CodeSage.Parser.Lexer

/-!
# CodeSage.Parser.DirectiveExtent

Where a directive ends. `directiveEnd` reads one with its literals, comments and spliced lines; the lexer reads it without
regard to the literals, and `directives_only` passes a literal as a whole.

`directive_extent_iff`: on which directives all three agree.
-/

namespace CodeSage
namespace Parser

section Extent

/-- What a byte of a directive stands in. -/
inductive Mode where
  | code
  | literal (quote : UInt8)
  | escaped (quote : UInt8)
  | line

/-- The mode behind the bytes read next, and how many these are. -/
def Mode.next (mode : Mode) (b : UInt8) (rest : Bytes) : Mode × Nat :=
  match mode with
  | .code =>
    if startsWith ['/', '/'] (b :: rest) then (.line, 2)
    else if startsWith ['/', '*'] (b :: rest) then (.code, skipBlockComment (b :: rest))
    else if b = byte '\'' ∨ b = byte '"' then (.literal b, 1)
    else (.code, 1)
  | .literal quote => if b = quote then (.code, 1) else if b = byte '\\' then (.escaped quote, 1) else (.literal quote, 1)
  | .escaped quote => (.literal quote, 1)
  | .line => (.line, 1)

/-- A directive ends at the first line break that is neither escaped nor in a comment. -/
def directiveEnd : Mode → Nat → Bytes → Nat
  | _, _, [] => 0
  | mode, pass + 1, _ :: rest => 1 + directiveEnd mode pass rest
  | mode, 0, b :: rest =>
    match spliceLen (b :: rest) with
    | some length => 1 + directiveEnd mode (length - 1) rest
    | none => if b = byte '\n' then 0 else 1 + directiveEnd (mode.next b rest).1 ((mode.next b rest).2 - 1) rest

/-- Read without regard to its literals, a text of so many bytes closes each comment it opens, has no line break between
that is not spliced, and none at all behind a `//`. -/
def bare : Nat → Nat → Bytes → Bool
  | 0, pass, _ => pass == 0
  | _ + 1, _, [] => false
  | limit + 1, pass + 1, _ :: rest => bare limit pass rest
  | limit + 1, 0, b :: rest =>
    if b = byte '\n' then false
    else
      match spliceLen (b :: rest) with
      | some length => bare limit (length - 1) rest
      | none =>
        if startsWith ['/', '*'] (b :: rest) then bare limit (skipBlockComment (b :: rest) - 1) rest
        else if startsWith ['/', '/'] (b :: rest) then skipLine (b :: rest) == limit + 1
        else bare limit 0 rest

/-- A line break is spliced in a literal by a backslash right before it that is not escaped itself. -/
def Mode.splices (mode : Mode) (length : Nat) : Bool :=
  match mode with
  | .literal _ => length == 2
  | .escaped _ => false
  | _ => true

/-- All lines of a directive's literals are spliced so. -/
def quotesOk : Mode → Nat → Bytes → Bool
  | _, _, [] => true
  | mode, pass + 1, _ :: rest => quotesOk mode pass rest
  | mode, 0, b :: rest =>
    match spliceLen (b :: rest) with
    | some length => mode.splices length && quotesOk mode (length - 1) rest
    | none => if b = byte '\n' then true else quotesOk (mode.next b rest).1 ((mode.next b rest).2 - 1) rest

end Extent

section Front

variable {b : UInt8} {rest src : Bytes}

theorem startsWith_iff {text : List Char} : startsWith text src = true ↔ ∃ more, src = text.map byte ++ more := by
  rw [startsWith, List.isPrefixOf_iff_prefix]
  constructor
  · rintro ⟨more, rfl⟩
    exact ⟨more, rfl⟩
  · rintro ⟨more, rfl⟩
    exact ⟨more, rfl⟩

theorem startsWith_two {x y : Char} : startsWith [x, y] (b :: rest) = true ↔ b = byte x ∧ ∃ more, rest = byte y :: more := by
  rw [startsWith_iff]
  constructor
  · rintro ⟨more, h⟩
    cases h
    exact ⟨rfl, more, rfl⟩
  · rintro ⟨rfl, more, rfl⟩
    exact ⟨more, rfl⟩

theorem startsWith_three {x y z : Char} :
    startsWith [x, y, z] (b :: rest) = true ↔ b = byte x ∧ ∃ more, rest = byte y :: byte z :: more := by
  rw [startsWith_iff]
  constructor
  · rintro ⟨more, h⟩
    cases h
    exact ⟨rfl, more, rfl⟩
  · rintro ⟨rfl, more, rfl⟩
    exact ⟨more, rfl⟩

/-- Where a splice stands, and how long it is. -/
theorem spliceLen_eq_some {length : Nat} : spliceLen (b :: rest) = some length ↔
    b = byte '\\' ∧ ((length = 2 ∧ ∃ more, rest = byte '\n' :: more) ∨ (length = 3 ∧ ∃ more, rest = byte '\r' :: byte '\n' :: more)) := by
  have hne : byte '\r' ≠ byte '\n' := by decide
  rw [spliceLen]
  by_cases htwo : startsWith ['\\', '\n'] (b :: rest) = true
  · rw [if_pos htwo]
    obtain ⟨rfl, more, rfl⟩ := startsWith_two.mp htwo
    constructor
    · intro h
      cases h
      exact ⟨rfl, Or.inl ⟨rfl, more, rfl⟩⟩
    · rintro ⟨-, ⟨rfl, -⟩ | ⟨-, more', heq⟩⟩
      · rfl
      · exact absurd (List.cons.inj heq).1.symm hne
  · rw [if_neg htwo]
    by_cases hthree : startsWith ['\\', '\r', '\n'] (b :: rest) = true
    · rw [if_pos hthree]
      obtain ⟨rfl, more, rfl⟩ := startsWith_three.mp hthree
      constructor
      · intro h
        cases h
        exact ⟨rfl, Or.inr ⟨rfl, more, rfl⟩⟩
      · rintro ⟨-, ⟨-, more', heq⟩ | ⟨rfl, -⟩⟩
        · exact absurd (List.cons.inj heq).1 hne
        · rfl
    · rw [if_neg hthree]
      refine ⟨nofun, ?_⟩
      rintro ⟨rfl, ⟨-, hmore⟩ | ⟨-, hmore⟩⟩
      · exact absurd (startsWith_two.mpr ⟨rfl, hmore⟩) htwo
      · exact absurd (startsWith_three.mpr ⟨rfl, hmore⟩) hthree

theorem spliceLen_le {length : Nat} (h : spliceLen (b :: rest) = some length) : 2 ≤ length ∧ length ≤ (b :: rest).length := by
  obtain ⟨-, ⟨rfl, more, rfl⟩ | ⟨rfl, more, rfl⟩⟩ := spliceLen_eq_some.mp h
  · simp
  · simp

theorem spliceLen_other (h : b ≠ byte '\\') : spliceLen (b :: rest) = none := by
  cases hlength : spliceLen (b :: rest) with
  | none => rfl
  | some length => exact absurd (spliceLen_eq_some.mp hlength).1 h

theorem position_le {needle : Bytes} {p : Nat} (h : position needle src = some p) : p + needle.length ≤ src.length := by
  induction src generalizing p with
  | nil => cases h
  | cons b rest ih =>
    rw [position] at h
    split at h
    · cases h
      rw [Nat.zero_add]
      exact (List.isPrefixOf_iff_prefix.mp ‹_›).length_le
    · obtain ⟨p', hp', rfl⟩ := Option.map_eq_some_iff.mp h
      have := ih hp'
      rw [List.length_cons]
      omega

theorem skipBlockComment_le (h : startsWith ['/', '*'] src = true) : 2 ≤ skipBlockComment src ∧ skipBlockComment src ≤ src.length := by
  have htwo : 2 ≤ src.length := by
    have := (List.isPrefixOf_iff_prefix.mp h).length_le
    simpa using this
  rw [skipBlockComment]
  cases hp : position [byte '*', byte '/'] (src.drop 2) with
  | none => exact ⟨htwo, Nat.le_refl _⟩
  | some p =>
    have := position_le hp
    rw [List.length_drop, List.length_cons, List.length_singleton] at this
    dsimp only
    omega

theorem skipLine_le (src : Bytes) : skipLine src ≤ src.length := (List.takeWhile_sublist _).length_le

end Front

section Bare

/-- What ends a directive: the end of the source, or a line break. -/
def AtEnd (src : Bytes) : Prop := src = [] ∨ src.head? = some (byte '\n')

theorem bare_of_passed {limit pass : Nat} {src : Bytes} (hlimit : limit ≤ src.length) (hpass : pass ≤ src.length) (hend : AtEnd (src.drop limit)) :
    skipDirective pass src = limit ↔ bare limit pass src = true := by
  induction src generalizing limit pass with
  | nil =>
    simp only [List.length_nil, Nat.le_zero] at hlimit hpass
    subst hlimit
    subst hpass
    simp [skipDirective, bare]
  | cons b rest ih =>
    rw [List.length_cons] at hlimit hpass
    cases pass with
    | succ pass =>
      cases limit with
      | zero =>
        rw [skipDirective, bare]
        simp
      | succ limit =>
        rw [skipDirective, bare, ← ih (by omega) (by omega) hend]
        omega
    | zero =>
      cases limit with
      | zero =>
        have hb : b = byte '\n' := by
          rcases hend with hnil | hhead
          · cases hnil
          · exact Option.some.inj hhead
        rw [skipDirective, if_pos hb, bare]
        simp
      | succ limit =>
        rw [skipDirective, bare]
        by_cases hb : b = byte '\n'
        · rw [if_pos hb, if_pos hb]
          simp
        · rw [if_neg hb, if_neg hb]
          cases hlength : spliceLen (b :: rest) with
          | some length =>
            have hle := spliceLen_le hlength
            rw [List.length_cons] at hle
            dsimp only
            rw [← ih (by omega) (by omega) hend]
            omega
          | none =>
            dsimp only
            split
            · rename_i hopen
              have hle := skipBlockComment_le hopen
              rw [List.length_cons] at hle
              rw [← ih (by omega) (by omega) hend]
              omega
            · split
              · rw [beq_iff_eq]
              · rw [← ih (by omega) (by omega) hend]
                omega

end Bare

section Passing

variable {src : Bytes} {pass : Nat}

theorem directiveEnd_pass (mode : Mode) (h : pass ≤ src.length) : directiveEnd mode pass src = pass + directiveEnd mode 0 (src.drop pass) := by
  induction src generalizing pass with
  | nil =>
    rw [Nat.le_zero.mp h, List.drop_zero, Nat.zero_add]
  | cons b rest ih =>
    cases pass with
    | zero => rw [List.drop_zero, Nat.zero_add]
    | succ pass =>
      rw [directiveEnd, ih (Nat.le_of_succ_le_succ h), List.drop_succ_cons]
      omega

theorem copyDirective_pass (h : pass ≤ src.length) : copyDirective pass src = pass + copyDirective 0 (src.drop pass) := by
  induction src generalizing pass with
  | nil => rw [Nat.le_zero.mp h, List.drop_zero, Nat.zero_add]
  | cons b rest ih =>
    cases pass with
    | zero => rw [List.drop_zero, Nat.zero_add]
    | succ pass =>
      rw [copyDirective, ih (Nat.le_of_succ_le_succ h), List.drop_succ_cons]
      omega

theorem quotesOk_pass (mode : Mode) (h : pass ≤ src.length) : quotesOk mode pass src = quotesOk mode 0 (src.drop pass) := by
  induction src generalizing pass with
  | nil => rw [Nat.le_zero.mp h, List.drop_zero]
  | cons b rest ih =>
    cases pass with
    | zero => rw [List.drop_zero]
    | succ pass => rw [quotesOk, ih (Nat.le_of_succ_le_succ h), List.drop_succ_cons]

theorem Mode.next_le (mode : Mode) (b : UInt8) (rest : Bytes) : 1 ≤ (mode.next b rest).2 ∧ (mode.next b rest).2 ≤ (b :: rest).length := by
  have hpos : 1 ≤ (b :: rest).length := Nat.le_add_left 1 _
  cases mode with
  | code =>
    rw [Mode.next]
    split
    · rename_i hslash
      obtain ⟨-, more, rfl⟩ := startsWith_two.mp hslash
      simp
    · split
      · rename_i hopen
        have := skipBlockComment_le hopen
        exact ⟨by omega, this.2⟩
      · split
        · exact ⟨Nat.le_refl 1, hpos⟩
        · exact ⟨Nat.le_refl 1, hpos⟩
  | literal quote =>
    rw [Mode.next]
    split
    · exact ⟨Nat.le_refl 1, hpos⟩
    · split
      · exact ⟨Nat.le_refl 1, hpos⟩
      · exact ⟨Nat.le_refl 1, hpos⟩
  | escaped quote => exact ⟨Nat.le_refl 1, hpos⟩
  | line => exact ⟨Nat.le_refl 1, hpos⟩

theorem directiveEnd_le (mode : Mode) (src : Bytes) : directiveEnd mode 0 src ≤ src.length ∧ AtEnd (src.drop (directiveEnd mode 0 src)) := by
  induction hn : src.length using Nat.strongRecOn generalizing mode src with
  | _ n ih =>
    cases src with
    | nil => exact ⟨Nat.zero_le _, Or.inl rfl⟩
    | cons b rest =>
      subst hn
      have hstep : ∀ (mode : Mode) (length : Nat), 1 ≤ length → length ≤ (b :: rest).length →
          1 + directiveEnd mode (length - 1) rest ≤ (b :: rest).length ∧
            AtEnd ((b :: rest).drop (1 + directiveEnd mode (length - 1) rest)) := by
        intro mode length hpos hle
        rw [List.length_cons] at hle ⊢
        rw [directiveEnd_pass mode (by omega)]
        obtain ⟨hbound, hend⟩ := ih _ (by rw [List.length_drop, List.length_cons]; omega) mode (rest.drop (length - 1)) rfl
        rw [List.length_drop] at hbound
        rw [List.drop_drop] at hend
        refine ⟨by omega, ?_⟩
        rw [Nat.add_comm 1, List.drop_succ_cons]
        exact hend
      rw [directiveEnd]
      cases hlength : spliceLen (b :: rest) with
      | some length =>
        have hle := spliceLen_le hlength
        exact hstep mode length (by omega) hle.2
      | none =>
        dsimp only
        split
        · rename_i hb
          exact ⟨Nat.zero_le _, Or.inr (congrArg some hb)⟩
        · exact hstep _ _ (mode.next_le b rest).1 (mode.next_le b rest).2

end Passing

section Quotes

/-- How a literal is passed: to where it ends, or to a line break that the directive goes on behind. -/
inductive Passed (quote : UInt8) (src : Bytes) (length : Nat) : Prop where
  | closed (ends : directiveEnd (.literal quote) 0 src = length + directiveEnd .code 0 (src.drop length))
      (ok : quotesOk (.literal quote) 0 src = quotesOk .code 0 (src.drop length))
  | broken (ok : quotesOk (.literal quote) 0 src = false) (stops : (src.drop length).head? = some (byte '\n'))
      (goesOn : length < directiveEnd (.literal quote) 0 src)

theorem Passed.behind {quote : UInt8} {src read : Bytes} {length : Nat} (h : Passed quote src length)
    (hends : directiveEnd (.literal quote) 0 (read ++ src) = read.length + directiveEnd (.literal quote) 0 src)
    (hok : quotesOk (.literal quote) 0 (read ++ src) = quotesOk (.literal quote) 0 src) : Passed quote (read ++ src) (read.length + length) := by
  have hdrop : (read ++ src).drop (read.length + length) = src.drop length := List.drop_length_add_append length
  cases h with
  | closed ends ok => exact .closed (by rw [hends, ends, hdrop]; omega) (by rw [hok, ok, hdrop])
  | broken ok stops goesOn => exact .broken (by rw [hok, ok]) (by rw [hdrop, stops]) (by rw [hends]; omega)

theorem ends_at_break (mode : Mode) (more : Bytes) : directiveEnd mode 0 (byte '\n' :: more) = 0 := by
  rw [directiveEnd, spliceLen_other (by decide)]
  exact if_pos rfl

theorem quotesOk_at_break (mode : Mode) (more : Bytes) : quotesOk mode 0 (byte '\n' :: more) = true := by
  rw [quotesOk, spliceLen_other (by decide)]
  exact if_pos rfl

/-- One byte read, in a mode that is no splice and no end. -/
theorem directiveEnd_one {mode mode' : Mode} {b : UInt8} {rest : Bytes} (hsplice : spliceLen (b :: rest) = none) (hb : b ≠ byte '\n')
    (hnext : mode.next b rest = (mode', 1)) :
    directiveEnd mode 0 (b :: rest) = 1 + directiveEnd mode' 0 rest ∧ quotesOk mode 0 (b :: rest) = quotesOk mode' 0 rest := by
  rw [directiveEnd, quotesOk, hsplice]
  dsimp only
  rw [if_neg hb, if_neg hb, hnext]
  exact ⟨rfl, rfl⟩

theorem directiveEnd_splice {mode : Mode} {b : UInt8} {rest : Bytes} {length : Nat} (hsplice : spliceLen (b :: rest) = some length) :
    directiveEnd mode 0 (b :: rest) = length + directiveEnd mode 0 ((b :: rest).drop length) ∧
      quotesOk mode 0 (b :: rest) = (mode.splices length && quotesOk mode 0 ((b :: rest).drop length)) := by
  have hle := spliceLen_le hsplice
  rw [List.length_cons] at hle
  obtain ⟨length', rfl⟩ : ∃ length', length = length' + 1 := ⟨length - 1, by omega⟩
  rw [directiveEnd, quotesOk, hsplice]
  dsimp only
  rw [Nat.add_sub_cancel, directiveEnd_pass mode (by omega), quotesOk_pass mode (by omega), List.drop_succ_cons]
  exact ⟨by omega, rfl⟩

theorem quotedBody_break (quote : UInt8) (more : Bytes) : quotedBody quote (byte '\n' :: more) = 0 := by
  cases more with
  | nil => rfl
  | cons c more =>
    rw [quotedBody, if_neg (by decide), if_pos rfl]

/-- A backslash in a literal, with what it escapes. -/
theorem passed_escape {quote c : UInt8} {rest : Bytes} (hquote : quote ≠ byte '\\' ∧ quote ≠ byte '\r')
    (h : Passed quote rest (quotedBody quote rest)) : Passed quote (byte '\\' :: c :: rest) (2 + quotedBody quote rest) := by
  cases hsplice : spliceLen (byte '\\' :: c :: rest) with
  | some length =>
    have hstep := @directiveEnd_splice (.literal quote) _ _ _ hsplice
    obtain ⟨-, ⟨rfl, more, heq⟩ | ⟨rfl, more, heq⟩⟩ := spliceLen_eq_some.mp hsplice
    · cases heq
      exact @Passed.behind _ _ [byte '\\', byte '\n'] _ h hstep.1 (by rw [List.cons_append, List.cons_append, List.nil_append, hstep.2]; rfl)
    · cases heq
      refine .broken ?_ ?_ ?_
      · rw [hstep.2]
        rfl
      · rw [quotedBody_break]
        rfl
      · rw [hstep.1, quotedBody_break]
        omega
  | none =>
    have hnext : (Mode.literal quote).next (byte '\\') (c :: rest) = (.escaped quote, 1) := by
      rw [Mode.next, if_neg hquote.1.symm, if_pos rfl]
    obtain ⟨hends, hok⟩ := directiveEnd_one hsplice (by decide) hnext
    cases hsplice' : spliceLen (c :: rest) with
    | some length =>
      have hstep := @directiveEnd_splice (.escaped quote) _ _ _ hsplice'
      have hbad : quotesOk (.literal quote) 0 (byte '\\' :: c :: rest) = false := by
        rw [hok, hstep.2]
        rfl
      obtain ⟨-, ⟨rfl, more, rfl⟩ | ⟨rfl, more, rfl⟩⟩ := spliceLen_eq_some.mp hsplice'
      · refine .broken hbad ?_ ?_
        · rw [quotedBody_break]
          rfl
        · rw [hends, hstep.1, quotedBody_break]
          omega
      · have hcr : quotedBody quote (byte '\r' :: byte '\n' :: more) = 1 := by
          rw [quotedBody, if_neg (by decide), if_neg (by decide), if_neg hquote.2.symm, quotedBody_break]
        refine .broken hbad ?_ ?_
        · rw [hcr]
          rfl
        · rw [hends, hstep.1, hcr]
          omega
    | none =>
      have hc : c ≠ byte '\n' := by
        rintro rfl
        have := spliceLen_eq_some.mpr ⟨rfl, Or.inl ⟨rfl, rest, rfl⟩⟩
        rw [hsplice] at this
        cases this
      obtain ⟨hends', hok'⟩ := @directiveEnd_one (.escaped quote) _ _ _ hsplice' hc rfl
      refine @Passed.behind _ _ [byte '\\', c] _ h ?_ ?_
      · rw [List.cons_append, List.cons_append, List.nil_append, hends, hends', List.length_cons, List.length_singleton]
        omega
      · rw [List.cons_append, List.cons_append, List.nil_append, hok, hok']

theorem passed_break (quote : UInt8) (more : Bytes) : Passed quote (byte '\n' :: more) (quotedBody quote (byte '\n' :: more)) := by
  rw [quotedBody_break]
  refine .closed ?_ ?_
  · rw [List.drop_zero, ends_at_break, ends_at_break]
  · rw [List.drop_zero, quotesOk_at_break, quotesOk_at_break]

theorem passed_literal {quote : UInt8} (hquote : quote ≠ byte '\\' ∧ quote ≠ byte '\r') (src : Bytes) : Passed quote src (quotedBody quote src) := by
  induction src using quotedBody.induct quote with
  | case1 => exact .closed rfl rfl
  | case2 => exact passed_break quote []
  | case3 b hb =>
    have hone : spliceLen [b] = none := by
      cases hsplice : spliceLen [b] with
      | none => rfl
      | some length =>
        have := spliceLen_le hsplice
        rw [List.length_singleton] at this
        omega
    have hnil : ∀ mode : Mode, directiveEnd mode 0 [] = 0 ∧ quotesOk mode 0 [] = true := fun mode => ⟨rfl, rfl⟩
    obtain ⟨mode', hnext⟩ : ∃ mode', (Mode.literal quote).next b [] = (mode', 1) := by
      rw [Mode.next]
      split
      · exact ⟨_, rfl⟩
      · split
        · exact ⟨_, rfl⟩
        · exact ⟨_, rfl⟩
    obtain ⟨hends, hok⟩ := directiveEnd_one hone hb hnext
    rw [quotedBody, if_neg hb]
    exact .closed hends hok
  | case4 c rest ih =>
    rw [quotedBody, if_pos rfl]
    exact passed_escape hquote ih
  | case5 c rest _ => exact passed_break quote (c :: rest)
  | case6 c rest hslash hbreak =>
    have hnext : (Mode.literal quote).next quote (c :: rest) = (.code, 1) := by rw [Mode.next, if_pos rfl]
    obtain ⟨hends, hok⟩ := directiveEnd_one (spliceLen_other hslash) hbreak hnext
    rw [quotedBody, if_neg hslash, if_neg hbreak, if_pos rfl]
    exact .closed hends hok
  | case7 b c rest hslash hbreak hother ih =>
    have hnext : (Mode.literal quote).next b (c :: rest) = (.literal quote, 1) := by rw [Mode.next, if_neg hother, if_neg hslash]
    obtain ⟨hends, hok⟩ := directiveEnd_one (spliceLen_other hslash) hbreak hnext
    rw [quotedBody, if_neg hslash, if_neg hbreak, if_neg hother]
    exact @Passed.behind _ _ [b] _ ih hends hok

/-- A spliced comment is read alike by both. -/
theorem directiveEnd_line (pass : Nat) (src : Bytes) :
    directiveEnd .line pass src = skipSplicedComment pass src ∧ quotesOk .line pass src = true := by
  induction src generalizing pass with
  | nil => cases pass <;> exact ⟨rfl, rfl⟩
  | cons b rest ih =>
    cases pass with
    | succ pass => rw [directiveEnd, skipSplicedComment, quotesOk, (ih pass).1]; exact ⟨rfl, (ih pass).2⟩
    | zero =>
      rw [directiveEnd, skipSplicedComment, quotesOk]
      cases hsplice : spliceLen (b :: rest) with
      | some length =>
        have hb : b ≠ byte '\n' := by
          rw [(spliceLen_eq_some.mp hsplice).1]
          decide
        refine ⟨?_, (ih _).2⟩
        dsimp only [Option.getD_some]
        rw [if_neg hb, (ih _).1]
      | none =>
        dsimp only
        split
        · exact ⟨rfl, rfl⟩
        · exact ⟨congrArg (1 + ·) (ih 0).1, (ih 0).2⟩

theorem skipSplicedComment_le (src : Bytes) : skipSplicedComment 0 src ≤ src.length ∧ AtEnd (src.drop (skipSplicedComment 0 src)) := by
  rw [← (directiveEnd_line 0 src).1]
  exact directiveEnd_le .line src

theorem copyDirective_atEnd {src : Bytes} (h : AtEnd src) : copyDirective 0 src = 0 := by
  rcases h with rfl | hhead
  · rfl
  · obtain ⟨more, rfl⟩ := List.head?_eq_some_iff.mp hhead
    rw [copyDirective, if_pos rfl]

/-- A directive is copied to its end, or, where a literal is spliced otherwise, not as far. -/
def Copies (src : Bytes) : Prop :=
  (copyDirective 0 src = directiveEnd .code 0 src ∧ quotesOk .code 0 src = true) ∨
    (copyDirective 0 src < directiveEnd .code 0 src ∧ quotesOk .code 0 src = false)

theorem Copies.behind {src : Bytes} {length : Nat} (h : Copies (src.drop length)) (hcopy : copyDirective 0 src = length + copyDirective 0 (src.drop length))
    (hends : directiveEnd .code 0 src = length + directiveEnd .code 0 (src.drop length))
    (hok : quotesOk .code 0 src = quotesOk .code 0 (src.drop length)) : Copies src := by
  rw [Copies, hcopy, hends, hok]
  rcases h with ⟨heq, hok⟩ | ⟨hlt, hok⟩
  · exact Or.inl ⟨by rw [heq], hok⟩
  · exact Or.inr ⟨by omega, hok⟩

theorem quotedBody_le (quote : UInt8) (src : Bytes) : quotedBody quote src ≤ src.length := by
  induction src using quotedBody.induct quote with
  | case1 => exact Nat.le_refl 0
  | case2 => exact Nat.zero_le _
  | case3 b hb =>
    rw [quotedBody, if_neg hb]
    exact Nat.le_refl 1
  | case4 c rest ih =>
    rw [quotedBody, if_pos rfl, List.length_cons, List.length_cons]
    omega
  | case5 c rest _ =>
    rw [quotedBody_break]
    exact Nat.zero_le _
  | case6 c rest hslash hbreak =>
    rw [quotedBody, if_neg hslash, if_neg hbreak, if_pos rfl, List.length_cons]
    omega
  | case7 b c rest hslash hbreak hother ih =>
    rw [quotedBody, if_neg hslash, if_neg hbreak, if_neg hother, List.length_cons]
    omega

theorem copyDirective_cons {b : UInt8} {rest : Bytes} {length : Nat} (hpos : 1 ≤ length) (hle : length ≤ (b :: rest).length) :
    1 + copyDirective (length - 1) rest = length + copyDirective 0 ((b :: rest).drop length) := by
  obtain ⟨length, rfl⟩ : ∃ length', length = length' + 1 := ⟨length - 1, by omega⟩
  rw [List.length_cons] at hle
  rw [Nat.add_sub_cancel, copyDirective_pass (by omega), List.drop_succ_cons]
  omega

/-- Several bytes read at once. -/
theorem directiveEnd_next {mode mode' : Mode} {b : UInt8} {rest : Bytes} {length : Nat} (hsplice : spliceLen (b :: rest) = none)
    (hb : b ≠ byte '\n') (hnext : mode.next b rest = (mode', length)) :
    directiveEnd mode 0 (b :: rest) = length + directiveEnd mode' 0 ((b :: rest).drop length) ∧
      quotesOk mode 0 (b :: rest) = quotesOk mode' 0 ((b :: rest).drop length) := by
  have hle := mode.next_le b rest
  rw [hnext, List.length_cons] at hle
  obtain ⟨length, rfl⟩ : ∃ length', length = length' + 1 := ⟨length - 1, by omega⟩
  rw [directiveEnd, quotesOk, hsplice]
  dsimp only
  rw [if_neg hb, if_neg hb, hnext]
  dsimp only
  rw [Nat.add_sub_cancel, directiveEnd_pass mode' (by omega), quotesOk_pass mode' (by omega), List.drop_succ_cons]
  exact ⟨by omega, rfl⟩

section Branches

variable {b : UInt8} {rest : Bytes}

/-- What both pass as a whole. -/
theorem Copies.same {length : Nat} (hsplice : spliceLen (b :: rest) = none) (hb : b ≠ byte '\n') (hnext : Mode.code.next b rest = (.code, length))
    (hcopy : copyDirective 0 (b :: rest) = 1 + copyDirective (length - 1) rest) (h : Copies ((b :: rest).drop length)) : Copies (b :: rest) := by
  have hle := Mode.code.next_le b rest
  rw [hnext] at hle
  obtain ⟨hends, hok⟩ := directiveEnd_next hsplice hb hnext
  exact h.behind (hcopy.trans (copyDirective_cons hle.1 hle.2)) hends hok

theorem copies_line (hline : startsWith ['/', '/'] (b :: rest) = true)
    (hcopy : copyDirective 0 (b :: rest) = 1 + copyDirective (skipSplicedComment 0 (b :: rest) - 1) rest) : Copies (b :: rest) := by
  have hnext : Mode.code.next b rest = (.line, 2) := by rw [Mode.next, if_pos hline]
  obtain ⟨rfl, more, rfl⟩ := startsWith_two.mp hline
  have hsplice : ∀ rest, spliceLen (byte '/' :: rest) = none := fun rest => spliceLen_other (by decide)
  have hone : ∀ rest, directiveEnd .line 0 (byte '/' :: rest) = 1 + directiveEnd .line 0 rest :=
    fun rest => (directiveEnd_one (hsplice rest) (by decide) rfl).1
  obtain ⟨hends, hok⟩ := directiveEnd_next (hsplice _) (by decide) hnext
  obtain ⟨hle, hend⟩ := skipSplicedComment_le (byte '/' :: byte '/' :: more)
  rw [← (directiveEnd_line 0 _).1] at hle hend hcopy
  have hpos : 1 ≤ directiveEnd .line 0 (byte '/' :: byte '/' :: more) := by
    rw [hone]
    omega
  rw [copyDirective_cons hpos hle, copyDirective_atEnd hend, Nat.add_zero, hone, hone] at hcopy
  refine Or.inl ⟨?_, hok.trans (directiveEnd_line 0 _).2⟩
  rw [hcopy, hends]
  exact (Nat.add_assoc 1 1 _).symm

theorem copies_quoted (hsplice : spliceLen (b :: rest) = none) (hb : b ≠ byte '\n') (hquote : b = byte '\'' ∨ b = byte '"')
    (hnext : Mode.code.next b rest = (.literal b, 1))
    (hcopy : copyDirective 0 (b :: rest) = 1 + copyDirective (skipQuoted b (b :: rest) - 1) rest)
    (h : ∀ length, 1 ≤ length → Copies ((b :: rest).drop length)) : Copies (b :: rest) := by
  have hne : b ≠ byte '\\' ∧ b ≠ byte '\r' := by rcases hquote with rfl | rfl <;> decide
  obtain ⟨hends, hok⟩ := directiveEnd_one hsplice hb hnext
  have hbody : skipQuoted b (b :: rest) = 1 + quotedBody b rest := rfl
  have hle := quotedBody_le b rest
  have hin : 1 + quotedBody b rest ≤ (b :: rest).length := by
    rw [List.length_cons]
    omega
  rw [hbody, copyDirective_cons (Nat.le_add_right 1 _) hin] at hcopy
  have hdrop : (b :: rest).drop (1 + quotedBody b rest) = rest.drop (quotedBody b rest) := by
    rw [Nat.add_comm, List.drop_succ_cons]
  cases passed_literal hne rest with
  | closed hcloses hok' =>
    refine (h (1 + quotedBody b rest) (by omega)).behind hcopy ?_ ?_
    · rw [hends, hcloses, hdrop]
      omega
    · rw [hok, hok', hdrop]
  | broken hok' hstops hgoesOn =>
    rw [hdrop, copyDirective_atEnd (Or.inr hstops)] at hcopy
    exact Or.inr ⟨by omega, hok.trans hok'⟩

end Branches

theorem copies (src : Bytes) : Copies src := by
  induction hn : src.length using Nat.strongRecOn generalizing src with
  | _ n ih =>
    cases src with
    | nil => exact Or.inl ⟨rfl, rfl⟩
    | cons b rest =>
      subst hn
      have hshorter : ∀ length, 1 ≤ length → Copies ((b :: rest).drop length) := fun length hpos =>
        ih _ (by rw [List.length_drop, List.length_cons]; omega) _ rfl
      by_cases hb : b = byte '\n'
      · subst hb
        exact Or.inl ⟨by rw [copyDirective_atEnd (Or.inr rfl), ends_at_break], quotesOk_at_break .code rest⟩
      · cases hsplice : spliceLen (b :: rest) with
        | some length =>
          have hle := spliceLen_le hsplice
          obtain ⟨hends, hok⟩ := @directiveEnd_splice .code _ _ _ hsplice
          refine (hshorter length (by omega)).behind ?_ hends hok
          rw [copyDirective, if_neg hb, hsplice]
          exact copyDirective_cons (by omega) hle.2
        | none =>
          by_cases hline : startsWith ['/', '/'] (b :: rest) = true
          · exact copies_line hline (by rw [copyDirective, if_neg hb, hsplice]; exact if_pos hline)
          · by_cases hopen : startsWith ['/', '*'] (b :: rest) = true
            · refine .same hsplice hb (by rw [Mode.next, if_neg hline, if_pos hopen]) ?_ (hshorter _ (Nat.le_of_succ_le (skipBlockComment_le hopen).1))
              rw [copyDirective, if_neg hb, hsplice]
              dsimp only
              rw [if_neg hline, if_pos hopen]
            · by_cases hquote : b = byte '\'' ∨ b = byte '"'
              · refine copies_quoted hsplice hb hquote (by rw [Mode.next, if_neg hline, if_neg hopen, if_pos hquote]) ?_ hshorter
                rw [copyDirective, if_neg hb, hsplice]
                dsimp only
                rw [if_neg hline, if_neg hopen, if_pos hquote]
              · refine .same hsplice hb (by rw [Mode.next, if_neg hline, if_neg hopen, if_neg hquote]) ?_ (hshorter 1 (Nat.le_refl 1))
                rw [copyDirective, if_neg hb, hsplice]
                dsimp only
                rw [if_neg hline, if_neg hopen, if_neg hquote]

end Quotes

section Tokens

theorem startsWith_other {x y : Char} {b : UInt8} (rest : Bytes) (h : b ≠ byte x) : ¬startsWith [x, y] (b :: rest) = true :=
  fun hstarts => h (startsWith_two.mp hstarts).1

theorem copyDirective_hash (rest : Bytes) : copyDirective 0 (byte '#' :: rest) = 1 + copyDirective 0 rest := by
  have hsplice : spliceLen (byte '#' :: rest) = none := spliceLen_other (by decide)
  rw [copyDirective, if_neg (by decide), hsplice]
  dsimp only
  rw [if_neg (startsWith_other rest (by decide)), if_neg (startsWith_other rest (by decide)), if_neg (by decide)]

theorem scanToken_directive {lineStart : Bool} {before b : UInt8} {rest : Bytes} (h : (scanToken lineStart before b rest).1 = .directive) :
    b = byte '#' ∧ lineStart = true ∧ (scanToken lineStart before b rest).2 = skipDirective 0 (b :: rest) := by
  rw [scanToken] at h ⊢
  by_cases hhash : (b = byte '#' && lineStart) = true
  · rw [if_pos hhash]
    obtain ⟨hb, hline⟩ := (Bool.and_eq_true _ _).mp hhash
    exact ⟨of_decide_eq_true hb, hline, rfl⟩
  · rw [if_neg hhash] at h
    split at h
    · cases h
    · split at h
      · cases h
      · split at h
        · cases h
        · split at h
          · rw [scanWord] at h
            split at h
            · cases h
            · cases h
          · split at h
            · cases h
            · cases h

/-- What stands where a directive token begins. -/
theorem lexFrom_directive {i pass : Nat} {lineStart : Bool} {before : UInt8} {src : Bytes} {token : Token}
    (h : token ∈ lexFrom i lineStart before pass src) (hkind : token.kind = .directive) :
    ∃ at_ rest, token.start = i + at_ ∧ src.drop at_ = byte '#' :: rest ∧ token.stop = token.start + skipDirective 0 (byte '#' :: rest) := by
  induction src generalizing i pass lineStart before with
  | nil => cases h
  | cons b rest ih =>
    have hbehind : ∀ {pass : Nat} {lineStart : Bool}, token ∈ lexFrom (i + 1) lineStart b pass rest →
        ∃ at_ more, token.start = i + at_ ∧ (b :: rest).drop at_ = byte '#' :: more ∧
          token.stop = token.start + skipDirective 0 (byte '#' :: more) := by
      intro pass lineStart hmem
      obtain ⟨at_, more, hstart, hdrop, hstop⟩ := ih hmem
      exact ⟨at_ + 1, more, by omega, by rw [List.drop_succ_cons, hdrop], hstop⟩
    cases pass with
    | succ pass => exact hbehind h
    | zero =>
      rw [lexFrom] at h
      split at h
      · exact hbehind h
      · split at h
        · exact hbehind h
        · split at h
          · exact hbehind h
          · split at h
            · exact hbehind h
            · rcases List.mem_cons.mp h with rfl | hmem
              · obtain ⟨rfl, -, hlength⟩ := scanToken_directive hkind
                exact ⟨0, rest, rfl, rfl, by rw [hlength]⟩
              · exact hbehind hmem

theorem extentsFrom_directive {i pass : Nat} {lineStart : Bool} {before : UInt8} {src : Bytes} {extent : Nat × Nat}
    (h : extent ∈ extentsFrom i lineStart before pass src) :
    ∃ at_ rest, extent.1 = i + at_ ∧ src.drop at_ = byte '#' :: rest ∧ extent.2 = extent.1 + (1 + copyDirective 0 rest) := by
  induction src generalizing i pass lineStart before with
  | nil => cases h
  | cons b rest ih =>
    have hbehind : ∀ {pass : Nat} {lineStart : Bool}, extent ∈ extentsFrom (i + 1) lineStart b pass rest →
        ∃ at_ more, extent.1 = i + at_ ∧ (b :: rest).drop at_ = byte '#' :: more ∧ extent.2 = extent.1 + (1 + copyDirective 0 more) := by
      intro pass lineStart hmem
      obtain ⟨at_, more, hstart, hdrop, hstop⟩ := ih hmem
      exact ⟨at_ + 1, more, by omega, by rw [List.drop_succ_cons, hdrop], hstop⟩
    cases pass with
    | succ pass => exact hbehind h
    | zero =>
      rw [extentsFrom] at h
      split at h
      · exact hbehind h
      · split at h
        · exact hbehind h
        · split at h
          · exact hbehind h
          · split at h
            · exact hbehind h
            · split at h
              · exact hbehind h
              · split at h
                · rename_i hhash
                  obtain ⟨hb, -⟩ := (Bool.and_eq_true _ _).mp hhash
                  rcases List.mem_cons.mp h with rfl | hmem
                  · exact ⟨0, rest, rfl, by rw [List.drop_zero, of_decide_eq_true hb], by omega⟩
                  · exact hbehind hmem
                · exact hbehind h

/-- A directive token ends where the directive does, and so does what is copied of the same directive. -/
structure EndsRight (src : Bytes) (token : Token) : Prop where
  ends : token.stop = token.start + directiveEnd .code 0 (src.drop token.start)
  copied : ∀ extent ∈ extents src, extent.1 = token.start → extent.2 = token.stop

/-- When it does. -/
structure Plain (src : Bytes) (token : Token) : Prop where
  comments : bare (directiveEnd .code 0 (src.drop token.start)) 0 (src.drop token.start) = true
  literals : (∃ extent ∈ extents src, extent.1 = token.start) → quotesOk .code 0 (src.drop token.start) = true

theorem directive_extent_iff {src : Bytes} {token : Token} (h : token ∈ tokenize src) (hkind : token.kind = .directive) :
    EndsRight src token ↔ Plain src token := by
  obtain ⟨at_, rest, hstart, hsrc, hstop⟩ := lexFrom_directive h hkind
  rw [Nat.zero_add] at hstart
  subst hstart
  obtain ⟨hle, hend⟩ := directiveEnd_le .code (src.drop token.start)
  have hbare := bare_of_passed hle (Nat.zero_le _) hend
  rw [← hsrc] at hstop
  have hextent : ∀ extent ∈ extents src, extent.1 = token.start → extent.2 = token.start + copyDirective 0 (src.drop token.start) := by
    intro extent hmem hsame
    obtain ⟨at_, rest', hstart, hsrc', hextent⟩ := extentsFrom_directive hmem
    rw [Nat.zero_add, hsame] at hstart
    subst hstart
    rw [hextent, hsame, hsrc', copyDirective_hash]
  constructor
  · rintro ⟨hends, hcopied⟩
    have hplain : skipDirective 0 (src.drop token.start) = directiveEnd .code 0 (src.drop token.start) := by omega
    refine ⟨hbare.mp hplain, ?_⟩
    rintro ⟨extent, hmem, hsame⟩
    have hcopy := hcopied extent hmem hsame
    rw [hextent extent hmem hsame] at hcopy
    rcases copies (src.drop token.start) with ⟨-, hok⟩ | ⟨hlt, -⟩
    · exact hok
    · omega
  · rintro ⟨hcomments, hliterals⟩
    have hplain := hbare.mpr hcomments
    refine ⟨by omega, fun extent hmem hsame => ?_⟩
    rw [hextent extent hmem hsame]
    rcases copies (src.drop token.start) with ⟨heq, -⟩ | ⟨-, hbad⟩
    · omega
    · rw [hliterals ⟨extent, hmem, hsame⟩] at hbad
      cases hbad

/-- A plain directive. -/
def plainSource : Bytes := "#if A\nint x;\n".toList.map byte

theorem directive_extent_iff_plain : EndsRight plainSource ⟨.directive, 0, 5⟩ ↔ Plain plainSource ⟨.directive, 0, 5⟩ :=
  directive_extent_iff (by decide) rfl

/-- A comment opener in a literal. -/
def quotedOpener : Bytes := "#define S \"/*\"\nint x;\n".toList.map byte

/-- The directive swallows the declaration behind it. -/
theorem quoted_opener_swallows : ∃ token ∈ tokenize quotedOpener, token.kind = .directive ∧ ¬EndsRight quotedOpener token := by
  refine ⟨⟨.directive, 0, 22⟩, by decide, rfl, fun hright => ?_⟩
  exact absurd hright.ends (by decide)

end Tokens

end Parser
end CodeSage
