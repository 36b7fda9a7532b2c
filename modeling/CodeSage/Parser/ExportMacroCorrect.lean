import CodeSage.Lib.Overwrite
import CodeSage.Parser.ExportMacro
import CodeSage.Parser.PreprocArmsCorrect

/-!
# CodeSage.Parser.ExportMacroCorrect

What the passes over export macros overwrite: parts of the source one behind the other, each with a macro at its front. Line
breaks stay where they are, and no byte outside of the parts changes.
-/

namespace CodeSage
namespace Parser
namespace ExportMacro

open Lib
open PreprocArms (ascii blankByte textOf Ordered ordered_tokenize stop_le_of_mem)

section Indices

variable {tokens : List Token} {src : Bytes} {i j lo p q : Nat} {t : Token}

theorem argsEnd_bounds {limit depth next : Nat} {rest : List Token} (h : argsEnd limit depth j rest = some next) :
    j + 1 ≤ next ∧ next ≤ j + rest.length := by
  induction rest generalizing depth j with
  | nil => cases h
  | cons t rest ih =>
    rw [List.length_cons]
    simp only [argsEnd] at h
    split at h
    · cases h
    · split at h
      · have := ih h
        omega
      · split at h
        · split at h
          · cases h
            omega
          · have := ih h
            omega
        · split at h
          · cases h
          · have := ih h
            omega

/-- The token behind a macro is behind it, and not behind the end. -/
theorem afterArgs_bounds {next : Nat} (h : afterArgs tokens i = some next) (hi : i < tokens.length) : i + 1 ≤ next ∧ next ≤ tokens.length := by
  rw [afterArgs] at h
  split at h
  · cases h
    omega
  · rename_i opening hopening
    have hlt := (List.getElem?_eq_some_iff.mp hopening).1
    split at h
    · have := argsEnd_bounds h
      rw [List.length_drop] at this
      omega
    · cases h
      omega

/-- The tokens from the `i`-th on start at `p` or behind. -/
def FromOn (tokens : List Token) (i p : Nat) : Prop := ∀ j t, i ≤ j → tokens[j]? = some t → p ≤ t.start

theorem FromOn.mono (h : FromOn tokens i p) (hij : i ≤ j) : FromOn tokens j p := fun k t hk => h k t (hij.trans hk)

theorem fromOn_of_getElem? (hordered : Ordered tokens) (ht : tokens[i]? = some t) : FromOn tokens (i + 1) t.stop := by
  intro j other hj hother
  obtain ⟨hi, rfl⟩ := List.getElem?_eq_some_iff.mp ht
  obtain ⟨hj', rfl⟩ := List.getElem?_eq_some_iff.mp hother
  exact List.pairwise_iff_getElem.mp hordered.2 i j hi hj' (by omega)

/-- Of two tokens the one behind ends behind. -/
theorem stop_le_stop (hordered : Ordered tokens) {t' : Token} (hij : i ≤ j) (ht : tokens[i]? = some t) (ht' : tokens[j]? = some t') :
    t.stop ≤ t'.stop := by
  rcases Nat.eq_or_lt_of_le hij with rfl | hlt
  · rw [ht] at ht'
    rw [Option.some.inj ht']
  · have := fromOn_of_getElem? hordered ht j t' hlt ht'
    have := hordered.1 t' (List.mem_of_getElem? ht')
    omega

end Indices

section Spans

/-- The front of what is overwritten by more than blanks: no line break within the first six bytes. -/
def Headed (src : Bytes) (span : MacroSpan) : Prop :=
  span.form ≠ .spaces → span.start + 6 ≤ span.stop ∧ ∀ i < 6, ∀ b, src[span.start + i]? = some b → isBreak b = false

/-- Spans one behind the other. -/
structure Tidy (src : Bytes) (lo hi : Nat) (spans : List MacroSpan) : Prop where
  within : ∀ span ∈ spans, lo ≤ span.start ∧ span.start < span.stop ∧ span.stop ≤ hi
  apart : spans.Pairwise fun first second => first.stop ≤ second.start
  headed : ∀ span ∈ spans, Headed src span

variable {tokens : List Token} {src : Bytes} {t : Token} {lo mid hi : Nat} {spans more : List MacroSpan} {span : MacroSpan}

theorem Tidy.nil : Tidy src lo hi [] := ⟨by simp, .nil, by simp⟩

theorem Tidy.single (hlo : lo ≤ span.start) (hpos : span.start < span.stop) (hhi : span.stop ≤ hi) (hheaded : Headed src span) :
    Tidy src lo hi [span] := ⟨by simp [hlo, hpos, hhi], List.pairwise_singleton _ _, by simpa using hheaded⟩

theorem Tidy.append (h : Tidy src lo mid spans) (h' : Tidy src mid hi more) (hlo : lo ≤ mid) (hmid : mid ≤ hi) :
    Tidy src lo hi (spans ++ more) where
  within := fun span hmem => by
    rcases List.mem_append.mp hmem with hmem | hmem
    · have := h.within span hmem
      omega
    · have := h'.within span hmem
      omega
  apart := List.pairwise_append.mpr ⟨h.apart, h'.apart, fun first hfirst second hsecond => by
    have := (h.within first hfirst).2.2
    have := (h'.within second hsecond).1
    omega⟩
  headed := fun span hmem => (List.mem_append.mp hmem).elim (h.headed span) (h'.headed span)

theorem Tidy.widen {hi' : Nat} (h : Tidy src lo mid spans) (hle : mid ≤ hi') : Tidy src lo hi' spans where
  within := fun span hmem => by
    have := h.within span hmem
    omega
  apart := h.apart
  headed := h.headed

theorem isBreak_of_isUppercase {b : UInt8} (h : (isUppercase b || isDigit b || b == byte '_') = true) : isBreak b = false := by
  rw [isBreak, Bool.or_eq_false_iff, beq_eq_false_iff_ne, beq_eq_false_iff_ne]
  constructor <;> rintro rfl <;> revert h <;> decide

/-- A macro's name: six bytes at least, and no line break. -/
def MacroName (text : Bytes) : Prop := 6 ≤ text.length ∧ ∀ b ∈ text, isBreak b = false

theorem macroName_of_isCandidate {text : Bytes} (h : isCandidate text = true) : MacroName text := by
  simp only [isCandidate, Bool.and_eq_true, List.all_eq_true, List.any_eq_true, decide_eq_true_eq] at h
  obtain ⟨⟨-, hall⟩, suffix, hsuffix, hlength, -⟩ := h
  refine ⟨?_, fun b hb => isBreak_of_isUppercase (hall b hb)⟩
  have hall4 : (SUFFIXES.all fun suffix => decide (4 ≤ suffix.length)) = true := by decide
  have := of_decide_eq_true (List.all_eq_true.mp hall4 suffix hsuffix)
  omega

theorem macroName_of_C_MACROS {text : Bytes} (h : C_MACROS.contains text = true) : MacroName text := by
  have hall : (C_MACROS.all fun word => decide (6 ≤ word.length) && word.all fun b => !isBreak b) = true := by decide
  have hword := List.all_eq_true.mp hall text (List.contains_iff_mem.mp h)
  simpa [MacroName] using hword

theorem headed_of_macroName {form : Form} (hstop : t.stop ≤ src.length) (hname : MacroName (textOf src t)) {stop : Nat} (hle : t.stop ≤ stop) :
    Headed src ⟨t.start, stop, form⟩ := by
  intro _
  obtain ⟨hlength, hbreaks⟩ := hname
  rw [textOf, List.length_take, List.length_drop] at hlength
  refine ⟨by dsimp only; omega, fun i hi b hb => hbreaks b (List.mem_iff_getElem?.mpr ⟨i, ?_⟩)⟩
  rw [textOf, List.getElem?_take_of_lt (by omega), List.getElem?_drop]
  exact hb

end Spans

section Blanks

variable {tokens : List Token} {src : Bytes} {t : Token} {prev : Option Nat} {i next lo : Nat} {span : MacroSpan}

theorem macroAt_spec (hordered : Ordered tokens) (hstop : ∀ t ∈ tokens, t.stop ≤ src.length) (ht : tokens[i]? = some t)
    (h : macroAt tokens src prev i t = some (span, next)) : i + 1 ≤ next ∧ span.start = t.start ∧ FromOn tokens next span.stop ∧
      Tidy src t.start span.stop [span] ∧ span.stop ≤ src.length := by
  rw [macroAt] at h
  split at h
  · rename_i hcandidate
    obtain ⟨next', hafter, h⟩ := Option.bind_eq_some_iff.mp h
    obtain ⟨form, -, h⟩ := Option.bind_eq_some_iff.mp h
    obtain ⟨last, hlast, h⟩ := Option.map_eq_some_iff.mp h
    obtain ⟨rfl, rfl⟩ := Prod.mk.inj h
    obtain ⟨hi, hnext⟩ := afterArgs_bounds hafter (List.getElem?_eq_some_iff.mp ht).1
    have hle : t.stop ≤ last.stop := stop_le_stop hordered (by omega) ht hlast
    have hpos := hordered.1 t (List.mem_of_getElem? ht)
    refine ⟨hi, rfl, ?_, .single (Nat.le_refl _) (by dsimp only; omega) (Nat.le_refl _) ?_, hstop last (List.mem_of_getElem? hlast)⟩
    · have hfrom := fromOn_of_getElem? hordered hlast
      rwa [Nat.sub_add_cancel (by omega)] at hfrom
    · exact headed_of_macroName (hstop t (List.mem_of_getElem? ht)) (macroName_of_isCandidate hcandidate.2) hle
  · cases h

theorem getElem?_of_drop {rest : List Token} (h : tokens.drop i = t :: rest) : tokens[i]? = some t ∧ tokens.drop (i + 1) = rest := by
  constructor
  · rw [← List.head?_drop, h, List.head?_cons]
  · rw [← List.tail_drop, h, List.tail_cons]

theorem tidy_blankSpansFrom (hordered : Ordered tokens) (hstop : ∀ t ∈ tokens, t.stop ≤ src.length) {pass : Nat} {rest : List Token}
    (hrest : tokens.drop i = rest) (hfrom : FromOn tokens (i + pass) lo) (hlo : lo ≤ src.length) :
    Tidy src lo src.length (blankSpansFrom tokens src prev i pass rest) := by
  induction rest generalizing prev i pass lo with
  | nil => cases pass <;> exact .nil
  | cons t rest ih =>
    obtain ⟨ht, hnext⟩ := getElem?_of_drop hrest
    cases pass with
    | succ pass => exact ih hnext (by rwa [Nat.add_assoc, Nat.add_comm 1]) hlo
    | zero =>
      rw [blankSpansFrom]
      split
      · rename_i span next hmacro
        obtain ⟨hi, hstart, hbehind, htidy, hle⟩ := macroAt_spec hordered hstop ht hmacro
        have hfirst : lo ≤ t.start := hfrom i t (Nat.le_refl i) ht
        have hspan := (htidy.within span (List.mem_singleton_self _)).2.1
        have hhead : Tidy src lo span.stop [span] :=
          .single (by omega) hspan (Nat.le_refl _) (htidy.headed span (List.mem_singleton_self _))
        refine hhead.append (ih hnext ?_ hle) (by omega) hle
        rwa [show i + 1 + (next - i - 1) = next by omega]
      · exact ih hnext (hfrom.mono (by omega)) hlo

theorem form_of_qualifies {form : Form} (h : qualifies tokens src prev next = some form) : form ≠ .cSpecifier := by
  obtain ⟨first, -, h⟩ := Option.bind_eq_some_iff.mp h
  dsimp only at h
  split at h
  · obtain ⟨-, h⟩ := Option.ite_none_right_eq_some.mp h
    cases h
    decide
  · obtain ⟨-, h⟩ := Option.ite_none_right_eq_some.mp h
    rw [← Option.some.inj h]
    split <;> decide

theorem mem_blankSpansFrom {pass : Nat} {rest : List Token} (hspan : span ∈ blankSpansFrom tokens src prev i pass rest) :
    ∃ t ∈ rest, t.kind = .ident ∧ isCandidate (textOf src t) = true ∧ span.start = t.start ∧ span.form ≠ .cSpecifier := by
  induction rest generalizing prev i pass with
  | nil => cases pass <;> cases hspan
  | cons t rest ih =>
    have hbehind : ∀ {prev i pass}, span ∈ blankSpansFrom tokens src prev i pass rest →
        ∃ t' ∈ t :: rest, t'.kind = .ident ∧ isCandidate (textOf src t') = true ∧ span.start = t'.start ∧ span.form ≠ .cSpecifier := by
      intro prev i pass hspan
      obtain ⟨t', hmem, hmacro⟩ := ih hspan
      exact ⟨t', List.mem_cons_of_mem _ hmem, hmacro⟩
    cases pass with
    | succ pass => exact hbehind hspan
    | zero =>
      rw [blankSpansFrom] at hspan
      split at hspan
      · rename_i head next hmacro
        rcases List.mem_cons.mp hspan with rfl | hspan
        · rw [macroAt] at hmacro
          split at hmacro
          · rename_i hcandidate
            obtain ⟨next', -, h⟩ := Option.bind_eq_some_iff.mp hmacro
            obtain ⟨form, hform, h⟩ := Option.bind_eq_some_iff.mp h
            obtain ⟨last, -, h⟩ := Option.map_eq_some_iff.mp h
            obtain ⟨rfl, -⟩ := Prod.mk.inj h
            exact ⟨t, List.mem_cons_self, hcandidate.1, hcandidate.2, rfl, form_of_qualifies hform⟩
          · cases hmacro
        · exact hbehind hspan
      · exact hbehind hspan

end Blanks

section CHeads

variable {tokens : List Token} {src : Bytes} {t : Token} {i next lo fuel : Nat} {spans spans' : List MacroSpan}

theorem tidy_macroRun (hordered : Ordered tokens) (hstop : ∀ t ∈ tokens, t.stop ≤ src.length) (hfrom : FromOn tokens i lo)
    (hlo : lo ≤ src.length) {start : Nat} (hstart : start ≤ lo) (htidy : Tidy src start lo spans)
    (h : macroRun tokens src fuel i spans = some (next, spans')) :
    i ≤ next ∧ (i < next ∨ spans' = spans) ∧ ∃ lo', lo ≤ lo' ∧ lo' ≤ src.length ∧ FromOn tokens next lo' ∧ Tidy src start lo' spans' := by
  induction fuel generalizing i lo spans with
  | zero =>
    cases h
    exact ⟨Nat.le_refl _, Or.inr rfl, lo, Nat.le_refl _, hlo, hfrom, htidy⟩
  | succ fuel ih =>
    rw [macroRun] at h
    obtain ⟨t, ht, h⟩ := Option.bind_eq_some_iff.mp h
    split at h
    · rename_i hmacro
      obtain ⟨next', hafter, h⟩ := Option.bind_eq_some_iff.mp h
      obtain ⟨last, hlast, h⟩ := Option.bind_eq_some_iff.mp h
      obtain ⟨hi, hnext⟩ := afterArgs_bounds hafter (List.getElem?_eq_some_iff.mp ht).1
      have hle : t.stop ≤ last.stop := stop_le_stop hordered (by omega) ht hlast
      have hpos := hordered.1 t (List.mem_of_getElem? ht)
      have hfirst : lo ≤ t.start := hfrom i t (Nat.le_refl i) ht
      have hend := hstop last (List.mem_of_getElem? hlast)
      have hname : MacroName (textOf src t) := hmacro.2.elim macroName_of_isCandidate macroName_of_C_MACROS
      have hfrom' : FromOn tokens next' last.stop := by
        have hfrom' := fromOn_of_getElem? hordered hlast
        rwa [Nat.sub_add_cancel (by omega)] at hfrom'
      have hhead : ∀ form, Tidy src lo t.stop [⟨t.start, t.stop, form⟩] := fun form =>
        .single hfirst hpos (Nat.le_refl _) (headed_of_macroName (hstop t (List.mem_of_getElem? ht)) hname (Nat.le_refl _))
      have hargs : Tidy src t.stop last.stop (if t.stop < last.stop then [⟨t.stop, last.stop, .spaces⟩] else []) := by
        split
        · rename_i hlt
          exact .single (Nat.le_refl _) hlt (Nat.le_refl _) fun hform => absurd rfl hform
        · exact .nil
      have htidy' := htidy.append ((hhead (if spans.isEmpty then .cSpecifier else .spaces)).append hargs (by omega) hle) hstart
        (by omega)
      obtain ⟨hge, -, lo', hlo', hbound, hbehind, hspans⟩ := ih hfrom' hend (by omega) htidy' h
      exact ⟨by omega, Or.inl (by omega), lo', by omega, hbound, hbehind, hspans⟩
    · cases h
      exact ⟨Nat.le_refl _, Or.inr rfl, lo, Nat.le_refl _, hlo, hfrom, htidy⟩

theorem tidy_headEnd (hordered : Ordered tokens) (hstop : ∀ t ∈ tokens, t.stop ≤ src.length) (hfrom : FromOn tokens i lo)
    (hlo : lo ≤ src.length) {start idents : Nat} {primitive : Bool} (hstart : start ≤ lo) (htidy : Tidy src start lo spans)
    (h : headEnd tokens src fuel i spans idents primitive = some (next, spans')) :
    i ≤ next ∧ ∃ lo', lo ≤ lo' ∧ lo' ≤ src.length ∧ FromOn tokens next lo' ∧ Tidy src start lo' spans' := by
  induction fuel generalizing i lo spans idents primitive with
  | zero => cases h
  | succ fuel ih =>
    rw [headEnd] at h
    obtain ⟨t, ht, h⟩ := Option.bind_eq_some_iff.mp h
    have hgo : ∀ {idents primitive}, headEnd tokens src fuel (i + 1) spans idents primitive = some (next, spans') →
        i ≤ next ∧ ∃ lo', lo ≤ lo' ∧ lo' ≤ src.length ∧ FromOn tokens next lo' ∧ Tidy src start lo' spans' := by
      intro idents primitive h
      obtain ⟨hge, hspans⟩ := ih (hfrom.mono (Nat.le_succ i)) hlo hstart htidy h
      exact ⟨by omega, hspans⟩
    split at h
    · dsimp only at h
      split at h
      · have hpos := hordered.1 t (List.mem_of_getElem? ht)
        have hfirst : lo ≤ t.start := hfrom i t (Nat.le_refl i) ht
        have hblank : Tidy src lo t.stop [⟨t.start, t.stop, .spaces⟩] :=
          .single hfirst hpos (Nat.le_refl _) fun hform => absurd rfl hform
        obtain ⟨hge, lo', hlo', hspans⟩ := ih (fromOn_of_getElem? hordered ht) (hstop t (List.mem_of_getElem? ht)) (by omega)
          (htidy.append hblank hstart (by omega)) h
        exact ⟨by omega, lo', by omega, hspans⟩
      · split at h
        · exact hgo h
        · exact hgo h
    · split at h
      · exact hgo h
      · split at h
        · split at h
          · cases h
            exact ⟨Nat.le_refl _, lo, Nat.le_refl _, hlo, hfrom, htidy⟩
          · cases h
        · cases h
    · cases h

theorem tidy_cFunctionHead (hordered : Ordered tokens) (hstop : ∀ t ∈ tokens, t.stop ≤ src.length) (hfrom : FromOn tokens i lo)
    (hlo : lo ≤ src.length) (h : cFunctionHead tokens src i = some (next, spans)) :
    i < next ∧ ∃ lo', lo ≤ lo' ∧ lo' ≤ src.length ∧ FromOn tokens next lo' ∧ Tidy src lo lo' spans := by
  obtain ⟨⟨j, run⟩, hrun, h⟩ := Option.bind_eq_some_iff.mp h
  obtain ⟨hj, hmoved, lo₁, hle, hbound, hfrom₁, htidy⟩ := tidy_macroRun hordered hstop hfrom hlo (Nat.le_refl lo) .nil hrun
  dsimp only at h
  split at h
  · cases h
  · rename_i hsome
    have hlt : i < j := hmoved.resolve_right fun hnil => hsome (by rw [hnil]; rfl)
    obtain ⟨hnext, lo₂, hle', hbound', hfrom₂, htidy'⟩ := tidy_headEnd hordered hstop hfrom₁ hbound hle htidy h
    exact ⟨by omega, lo₂, by omega, hbound', hfrom₂, htidy'⟩

theorem tidy_cSpansFrom (hordered : Ordered tokens) (hstop : ∀ t ∈ tokens, t.stop ≤ src.length) {pass : Nat} {rest : List Token}
    (hrest : tokens.drop i = rest) (hfrom : FromOn tokens (i + pass) lo) (hlo : lo ≤ src.length) :
    Tidy src lo src.length (cSpansFrom tokens src i pass rest) := by
  induction rest generalizing i pass lo with
  | nil => cases pass <;> exact .nil
  | cons t rest ih =>
    obtain ⟨ht, hnext⟩ := getElem?_of_drop hrest
    cases pass with
    | succ pass => exact ih hnext (by rwa [Nat.add_assoc, Nat.add_comm 1]) hlo
    | zero =>
      rw [cSpansFrom]
      split
      · rename_i next spans hhead
        split at hhead
        · obtain ⟨hi, lo', hlo', hbound, hbehind, htidy⟩ := tidy_cFunctionHead hordered hstop hfrom hlo hhead
          refine htidy.append (ih hnext ?_ hbound) hlo' hbound
          rwa [show i + 1 + (next - i - 1) = next by omega]
        · cases hhead
      · exact ih hnext (hfrom.mono (by omega)) hlo

end CHeads

section Overwriting

variable {src out : Bytes} {span : MacroSpan} {spans : List MacroSpan}

/-- A byte overwritten by another: where one of them is a line break, both are the same. -/
def Keeps (b b' : UInt8) : Prop := isBreak b = true ∨ isBreak b' = true → b = b'

theorem Keeps.refl (b : UInt8) : Keeps b b := fun _ => rfl

theorem Keeps.trans {b b' b'' : UInt8} (h : Keeps b b') (h' : Keeps b' b'') : Keeps b b'' := by
  rintro (hb | hb)
  · have heq := h (Or.inl hb)
    rw [heq]
    exact h' (Or.inl (heq ▸ hb))
  · have heq := h' (Or.inr hb)
    rw [← heq]
    exact h (Or.inr (heq ▸ hb))

theorem keeps_blankByte (b : UInt8) : Keeps b (blankByte b) := by
  rw [blankByte]
  split
  · exact .refl b
  · rename_i hb
    rintro (h | h)
    · exact absurd h hb
    · have hspace : isBreak (byte ' ') = false := by decide
      rw [hspace] at h
      cases h

theorem keeps_of_not_isBreak {b b' : UInt8} (hb : isBreak b = false) (hb' : isBreak b' = false) : Keeps b b' := by
  rintro (h | h)
  · rw [hb] at h
    cases h
  · rw [hb'] at h
    cases h

/-- Texts without line breaks of the same length. -/
theorem forall₂_keeps {text text' : Bytes} (hlength : text.length = text'.length) (h : ∀ b ∈ text, isBreak b = false)
    (h' : text'.all (fun b => !isBreak b) = true) : List.Forall₂ Keeps text text' := by
  induction text generalizing text' with
  | nil => cases text' with
    | nil => exact .nil
    | cons b' text' => cases hlength
  | cons b text ih => cases text' with
    | nil => cases hlength
    | cons b' text' =>
      rw [List.all_cons, Bool.and_eq_true, Bool.not_eq_true'] at h'
      refine .cons (keeps_of_not_isBreak (h b List.mem_cons_self) h'.1) ?_
      exact ih (Nat.succ.inj hlength) (fun b hb => h b (List.mem_cons_of_mem _ hb)) h'.2

theorem forall₂_blank (text : Bytes) : List.Forall₂ Keeps text (text.map blankByte) :=
  List.forall₂_map_right_iff.mpr (List.forall₂_same.mpr fun b _ => keeps_blankByte b)

/-- Where the source has no line break there is none in the copy. -/
theorem not_isBreak_of_keeps (h : List.Forall₂ Keeps src out) {i : Nat} (hsrc : ∀ b, src[i]? = some b → isBreak b = false) :
    ∀ b, out[i]? = some b → isBreak b = false := by
  intro b hb
  obtain ⟨hi, rfl⟩ := List.getElem?_eq_some_iff.mp hb
  have hi' : i < src.length := h.length_eq ▸ hi
  have hkeeps : Keeps src[i] out[i] := h.get hi' hi
  have hnot := hsrc src[i] (List.getElem?_eq_getElem hi')
  rw [Bool.eq_false_iff]
  intro hbreak
  rw [hkeeps (Or.inr hbreak), hbreak] at hnot
  cases hnot

theorem length_slice {start stop : Nat} {text : Bytes} (h : PreprocArms.slice out (start, stop) = some text) :
    start ≤ stop ∧ stop ≤ out.length ∧ text = (out.drop start).take (stop - start) ∧ text.length = stop - start := by
  rw [PreprocArms.slice] at h
  split at h
  · rename_i hbounds
    obtain ⟨hle, hstop⟩ := hbounds
    cases h
    refine ⟨hle, hstop, rfl, ?_⟩
    simp only [List.length_take, List.length_drop]
    omega
  · cases h

/-- What overwrites a span has its length and its line breaks. -/
theorem overwriteText_keeps (hkeeps : List.Forall₂ Keeps src out) (hpos : span.start < span.stop) (hheaded : Headed src span) {text : Bytes} (htext : PreprocArms.slice out (span.start, span.stop) = some text) :
    ∃ text', overwriteText src span text = some text' ∧ text'.length = span.stop - span.start ∧ List.Forall₂ Keeps text text' := by
  obtain ⟨-, -, rfl, hlength⟩ := length_slice htext
  have hget : ∀ i < span.stop - span.start, ((out.drop span.start).take (span.stop - span.start))[i]? = out[span.start + i]? := fun i hi => by
    rw [List.getElem?_take_of_lt hi, List.getElem?_drop]
  generalize htextOf : (out.drop span.start).take (span.stop - span.start) = text at *
  -- the first bytes are those of a name
  have hfront : span.form ≠ .spaces → 6 ≤ text.length ∧ ∀ b ∈ text.take 6, isBreak b = false := by
    intro hform
    obtain ⟨hsix, hbreaks⟩ := hheaded hform
    refine ⟨by omega, fun b hb => ?_⟩
    obtain ⟨i, hi⟩ := List.mem_iff_getElem?.mp hb
    have hlt : i < 6 := by
      have := (List.getElem?_eq_some_iff.mp hi).1
      rw [List.length_take] at this
      omega
    rw [List.getElem?_take_of_lt hlt, hget i (by omega)] at hi
    exact not_isBreak_of_keeps hkeeps (hbreaks i hlt) b hi
  rw [overwriteText]
  split
  · rename_i hattribute
    obtain ⟨hform, hfive, hend⟩ := hattribute
    obtain ⟨hsix, hbreaks⟩ := hfront (by rw [hform]; decide)
    have hmiddle : text = text.take 3 ++ (text.drop 3).take (text.length - 5) ++ text.drop (text.length - 2) := by
      have hrest : (text.drop 3).drop (text.length - 5) = text.drop (text.length - 2) := by
        rw [List.drop_drop]
        congr 1
        omega
      rw [List.append_assoc, ← hrest, List.take_append_drop, List.take_append_drop]
    have hlast : ∀ b ∈ text.drop (text.length - 2), isBreak b = false := by
      intro b hb
      obtain ⟨i, hi⟩ := List.mem_iff_getElem?.mp hb
      have hlt : i < 2 := by
        have := (List.getElem?_eq_some_iff.mp hi).1
        rw [List.length_drop] at this
        omega
      rw [List.getElem?_drop, hget _ (by omega)] at hi
      refine not_isBreak_of_keeps hkeeps (fun b' hb' => ?_) b hi
      have hmem : b' ∈ (src.drop (span.stop - 2)).take 2 := by
        refine List.mem_iff_getElem?.mpr ⟨i, ?_⟩
        rw [List.getElem?_take_of_lt hlt, List.getElem?_drop, ← hb']
        congr 1
        omega
      simpa using List.any_eq_false.mp hend b' hmem
    refine ⟨_, rfl, ?_, ?_⟩
    · simp only [List.length_append, List.length_take, List.length_drop, List.length_map, hlength]
      have h3 : (ascii "[[a").length = 3 := rfl
      have h2 : (ascii "]]").length = 2 := rfl
      omega
    · have hthree : List.Forall₂ Keeps (text.take 3) (ascii "[[a") := by
        refine forall₂_keeps ?_ (fun b hb => hbreaks b ?_) (by decide)
        · rw [List.length_take, Nat.min_eq_left (by omega)]
          rfl
        · rw [show (3 : Nat) = min 3 6 from rfl, ← List.take_take] at hb
          exact List.mem_of_mem_take hb
      have htwo : List.Forall₂ Keeps (text.drop (text.length - 2)) (ascii "]]") := by
        refine forall₂_keeps ?_ hlast (by decide)
        rw [List.length_drop, Nat.sub_sub_self (by omega)]
        rfl
      have hblank := List.forall₂_take (text.length - 5) (List.forall₂_drop 3 (forall₂_blank text))
      have hwhole := forall₂_append (forall₂_append hthree hblank) htwo
      rwa [← hmiddle, hlength] at hwhole
  · split
    · rename_i hform
      obtain ⟨hsix, hbreaks⟩ := hfront (by rw [hform]; decide)
      rw [if_pos (by omega)]
      refine ⟨_, rfl, ?_, ?_⟩
      · simp only [List.length_append, List.length_drop, List.length_map, hlength]
        have h6 : (ascii "extern").length = 6 := rfl
        omega
      · have hsix' : List.Forall₂ Keeps (text.take 6) (ascii "extern") := by
          refine forall₂_keeps ?_ hbreaks (by decide)
          rw [List.length_take, Nat.min_eq_left hsix]
          rfl
        have hwhole := forall₂_append hsix' (List.forall₂_drop 6 (forall₂_blank text))
        rwa [List.take_append_drop] at hwhole
    · exact ⟨_, rfl, by rw [List.length_map, hlength], forall₂_blank text⟩

/-- A copy of a source in which only the spans are overwritten. -/
structure Overwritten (src out : Bytes) (spans : List MacroSpan) : Prop where
  keeps : List.Forall₂ Keeps src out
  outside : ∀ i, (∀ span ∈ spans, i < span.start ∨ span.stop ≤ i) → out[i]? = src[i]?

theorem overwriteSpans_spec {lo : Nat} (htidy : Tidy src lo src.length spans) : overwriteSpans src spans = some none ∧ spans = [] ∨
    ∃ out, overwriteSpans src spans = some (some out) ∧ spans ≠ [] ∧ Overwritten src out spans := by
  have hfold : ∀ more : List MacroSpan, (∀ span ∈ more, span ∈ spans) → ∀ out, List.Forall₂ Keeps src out →
      ∃ out', more.foldlM (overwriteSpan src) out = some out' ∧ List.Forall₂ Keeps src out' ∧
        ∀ i, (∀ span ∈ more, i < span.start ∨ span.stop ≤ i) → out'[i]? = out[i]? := by
    intro more
    induction more with
    | nil => exact fun _ out hkeeps => ⟨out, rfl, hkeeps, fun _ _ => rfl⟩
    | cons span more ih =>
      intro hmem out hkeeps
      have hspan := hmem span List.mem_cons_self
      obtain ⟨-, hpos, hstop⟩ := htidy.within span hspan
      have hbound : span.stop ≤ out.length := hkeeps.length_eq ▸ hstop
      have hslice : PreprocArms.slice out (span.start, span.stop) = some ((out.drop span.start).take (span.stop - span.start)) :=
        if_pos ⟨by omega, hbound⟩
      obtain ⟨text', htext', hlength, htextKeeps⟩ := overwriteText_keeps hkeeps hpos (htidy.headed span hspan) hslice
      have hstep : overwriteSpan src out span = some (overwrite out span.start span.stop text') := by
        rw [overwriteSpan, hslice, Option.bind_some, htext']
        rfl
      have hnext : List.Forall₂ Keeps src (overwrite out span.start span.stop text') :=
        forall₂_trans (R := Keeps) (fun h h' => h.trans h') hkeeps (forall₂_overwrite Keeps.refl (Nat.le_of_lt hpos) htextKeeps)
      obtain ⟨out', hout', hkeeps', houtside⟩ := ih (fun other hother => hmem other (List.mem_cons_of_mem _ hother)) _ hnext
      refine ⟨out', ?_, hkeeps', fun i hi => ?_⟩
      · rw [List.foldlM_cons, hstep]
        exact hout'
      · rw [houtside i fun other hother => hi other (List.mem_cons_of_mem _ hother)]
        exact getElem?_overwrite (Nat.le_of_lt hpos) hbound hlength (hi span List.mem_cons_self)
  rw [overwriteSpans]
  cases spans with
  | nil => exact Or.inl ⟨rfl, rfl⟩
  | cons span more =>
    obtain ⟨out, hout, hkeeps, houtside⟩ := hfold _ (fun _ h => h) src (forall₂_refl Keeps.refl src)
    refine Or.inr ⟨out, ?_, List.cons_ne_nil _ _, hkeeps, houtside⟩
    rw [List.isEmpty_cons, if_neg Bool.false_ne_true, hout]
    rfl

end Overwriting

section Results

/-- The pass never fails, and what it overwrites stands one behind the other, each with a macro's name at its front; it keeps
the length, the line breaks, and every byte outside of these parts. -/
theorem neutralize_overwrites (src : Bytes) : neutralize src = some none ∨
    ∃ out, neutralize src = some (some out) ∧ Tidy src 0 src.length (blankSpans (tokenize src) src) ∧
      (∀ span ∈ blankSpans (tokenize src) src, ∃ t ∈ tokenize src,
        t.kind = .ident ∧ isCandidate (textOf src t) = true ∧ span.start = t.start ∧ span.form ≠ .cSpecifier) ∧
      Overwritten src out (blankSpans (tokenize src) src) := by
  have htidy : Tidy src 0 src.length (blankSpans (tokenize src) src) :=
    tidy_blankSpansFrom (ordered_tokenize src) (fun _ => stop_le_of_mem) rfl (fun _ _ _ _ => Nat.zero_le _) (Nat.zero_le _)
  rw [neutralize]
  split
  · rcases overwriteSpans_spec htidy with ⟨hnone, -⟩ | ⟨out, hout, -, hwritten⟩
    · exact Or.inl hnone
    · exact Or.inr ⟨out, hout, htidy, fun _ => mem_blankSpansFrom, hwritten⟩
  · exact Or.inl rfl

/-- The same of the pass over C sources. -/
theorem neutralizeC_overwrites (src : Bytes) : neutralizeC src = some none ∨
    ∃ out, neutralizeC src = some (some out) ∧ Tidy src 0 src.length (cSpans (tokenize src) src) ∧
      Overwritten src out (cSpans (tokenize src) src) := by
  have htidy : Tidy src 0 src.length (cSpans (tokenize src) src) :=
    tidy_cSpansFrom (ordered_tokenize src) (fun _ => stop_le_of_mem) rfl (fun _ _ _ _ => Nat.zero_le _) (Nat.zero_le _)
  rw [neutralizeC]
  split
  · rcases overwriteSpans_spec htidy with ⟨hnone, -⟩ | ⟨out, hout, -, hwritten⟩
    · exact Or.inl hnone
    · exact Or.inr ⟨out, hout, htidy, hwritten⟩
  · exact Or.inl rfl

end Results

end ExportMacro
end Parser
end CodeSage
