import CodeSage.Graph.ResolverCorrect

/-!
# CodeSage.Graph.Enclosing

The definition that encloses a line, as its two readers choose it: `resolve_path_line` takes the latest start
(`crates/graph/src/resolver.rs`), the impact walk the shortest span (`crates/graph/src/impact.rs`). The second
is innermost for every list of ranges; the first is when no tie on the start leaves the longer range last.
-/

namespace CodeSage
namespace Graph
namespace Resolver

open Lib

/-- `s.line_start <= line && s.line_end >= line` -/
def Definition.holds (s : Definition) (line : UInt32) : Bool := s.lineStart ≤ line && line ≤ s.lineEnd

/-- The fallback owner of the impact walk: the first of the shortest spans that hold the line. -/
def fallbackOwner (syms : List Definition) (line : UInt32) : Option Definition :=
  syms.foldl (fun best s =>
    if s.holds line then
      match best with
      | some b => if b.lineEnd - b.lineStart ≤ s.lineEnd - s.lineStart then some b else some s
      | none => some s
    else best) none

/-- The caller a reference counts for: its recorded owner, or the fallback. -/
def callerOwner (syms : List Definition) (fromSymbol : Option Text) (line : UInt32) : Option Definition :=
  match fromSymbol.bind fun qn => syms.find? (·.qualifiedName = qn) with
  | some s => some s
  | none => fallbackOwner syms line

/-- The range of `t` lies strictly inside the range of `s`. -/
def StrictlyInside (t s : Definition) : Prop :=
  s.lineStart ≤ t.lineStart ∧ t.lineEnd ≤ s.lineEnd ∧ (t.lineStart, t.lineEnd) ≠ (s.lineStart, s.lineEnd)

/-- `r` is a definition of `l` iff there is one, and then nothing of `l` is strictly inside it. -/
structure Innermost (l : List Definition) (r : Option Definition) : Prop where
  found : r ≠ none ↔ ∃ s, s ∈ l
  mem : ∀ s, r = some s → s ∈ l
  least : ∀ s, r = some s → ∀ t ∈ l, ¬StrictlyInside t s

/-- Of the definitions that start last, the one read last ends first. -/
def LastEndsFirst (l : List Definition) : Prop :=
  ∀ pre s post, l = pre ++ s :: post → (∀ t ∈ pre, t.lineStart ≤ s.lineStart) →
    (∀ t ∈ post, t.lineStart < s.lineStart) → ∀ t ∈ pre, t.lineStart = s.lineStart → s.lineEnd ≤ t.lineEnd

section PathLine

theorem innermost_ne_none {l : List Definition} : innermost l ≠ none ↔ ∃ s, s ∈ l := by
  constructor
  · intro h
    obtain ⟨s, hs⟩ := Option.ne_none_iff_exists'.mp h
    exact ⟨s, innermost_mem hs⟩
  · rintro ⟨s, hs⟩ hnone
    rw [innermost_eq_none hnone] at hs
    cases hs

theorem innermost_of_split {pre post : List Definition} {s : Definition} (hpre : ∀ t ∈ pre, t.lineStart ≤ s.lineStart)
    (hpost : ∀ t ∈ post, t.lineStart < s.lineStart) : innermost (pre ++ s :: post) = some s := by
  induction post using List.reverseRecOn with
  | nil =>
    rw [innermost_concat]
    cases hb : innermost pre with
    | none => rfl
    | some b => exact if_pos (hpre b (innermost_mem hb))
  | append_singleton post t ih =>
    have hlt : t.lineStart < s.lineStart := hpost t (List.mem_append_right _ List.mem_cons_self)
    rw [← List.cons_append, ← List.append_assoc, innermost_concat,
      ih fun u hu => hpost u (List.mem_append_left _ hu)]
    exact if_neg (UInt32.not_le.mpr hlt)

theorem strictlyInside_iff {t s : Definition} (hle : t.lineStart ≤ s.lineStart) :
    StrictlyInside t s ↔ t.lineStart = s.lineStart ∧ t.lineEnd < s.lineEnd := by
  constructor
  · rintro ⟨hstart, hend, hne⟩
    have heq : t.lineStart = s.lineStart := UInt32.le_antisymm hle hstart
    refine ⟨heq, UInt32.lt_of_le_of_ne hend fun h => hne ?_⟩
    rw [heq, h]
  · rintro ⟨heq, hlt⟩
    refine ⟨heq ▸ UInt32.le_refl _, UInt32.le_of_lt hlt, fun h => ?_⟩
    have hend : t.lineEnd = s.lineEnd := congrArg Prod.snd h
    rw [hend] at hlt
    exact UInt32.lt_irrefl _ hlt

/-- The latest start is innermost exactly when ties on it are stored longest first. -/
theorem innermost_innermost_iff (l : List Definition) : Innermost l (innermost l) ↔ LastEndsFirst l := by
  constructor
  · rintro ⟨-, -, hleast⟩ pre s post rfl hpre hpost t ht heq
    refine UInt32.not_lt.mp fun hlt => ?_
    exact hleast s (innermost_of_split hpre hpost) t (List.mem_append_left _ ht)
      ((strictlyInside_iff (hpre t ht)).mpr ⟨heq, hlt⟩)
  · intro hlast
    refine ⟨innermost_ne_none, fun s hs => innermost_mem hs, ?_⟩
    intro s hs t ht hinside
    obtain ⟨pre, post, rfl, hpre, hpost⟩ := innermost_eq_some hs
    rcases List.mem_append.mp ht with ht | ht
    · obtain ⟨heq, hlt⟩ := (strictlyInside_iff (hpre t ht)).mp hinside
      exact UInt32.not_le.mpr hlt (hlast pre s post rfl hpre hpost t ht heq)
    · rcases List.mem_cons.mp ht with rfl | ht
      · exact hinside.2.2 rfl
      · have hlt := hpost t ht
        exact UInt32.not_le.mpr hlt hinside.1

end PathLine

section Fallback

variable {line : UInt32}

theorem fallbackOwner_concat (l : List Definition) (t : Definition) : fallbackOwner (l ++ [t]) line =
    if t.holds line then
      match fallbackOwner l line with
      | some b => if b.lineEnd - b.lineStart ≤ t.lineEnd - t.lineStart then some b else some t
      | none => some t
    else fallbackOwner l line := by
  rw [fallbackOwner, List.foldl_append]
  rfl

theorem fallbackOwner_eq_none {l : List Definition} (h : fallbackOwner l line = none) :
    ∀ t ∈ l, t.holds line = false := by
  induction l using List.reverseRecOn with
  | nil => exact nofun
  | append_singleton l t ih =>
    rw [fallbackOwner_concat] at h
    split at h
    · repeat' split at h
      all_goals cases h
    · rename_i hholds
      intro u hu
      rcases List.mem_append.mp hu with hu | hu
      · exact ih h u hu
      · rw [List.mem_singleton.mp hu]
        simpa using hholds

/-- The fold keeps a definition that holds the line, with no shorter span among those read. -/
theorem fallbackOwner_eq_some {l : List Definition} {s : Definition} (h : fallbackOwner l line = some s) :
    (s ∈ l ∧ s.holds line = true) ∧
      ∀ t ∈ l, t.holds line = true → s.lineEnd - s.lineStart ≤ t.lineEnd - t.lineStart := by
  induction l using List.reverseRecOn generalizing s with
  | nil => cases h
  | append_singleton l t ih =>
    have hstep : ∀ P : Definition → Prop, (∀ u ∈ l, P u) → P t → ∀ u ∈ l ++ [t], P u := by
      intro P hl ht u hu
      rcases List.mem_append.mp hu with hu | hu
      · exact hl u hu
      · exact List.mem_singleton.mp hu ▸ ht
    rw [fallbackOwner_concat] at h
    split at h
    · rename_i hholds
      cases hb : fallbackOwner l line with
      | none =>
        rw [hb] at h
        cases h
        refine ⟨⟨List.mem_append_right _ List.mem_cons_self, hholds⟩, hstep _ ?_ fun _ => UInt32.le_refl _⟩
        intro u hu huholds
        rw [fallbackOwner_eq_none hb u hu] at huholds
        cases huholds
      | some b =>
        obtain ⟨⟨hmem, hb'⟩, hleast⟩ := ih hb
        rw [hb] at h
        simp only at h
        split at h
        · rename_i hle
          cases h
          exact ⟨⟨List.mem_append_left _ hmem, hb'⟩, hstep _ hleast fun _ => hle⟩
        · rename_i hlt
          cases h
          have hlt := UInt32.not_le.mp hlt
          refine ⟨⟨List.mem_append_right _ List.mem_cons_self, hholds⟩, hstep _ ?_ fun _ => UInt32.le_refl _⟩
          intro u hu huholds
          exact UInt32.le_of_lt (UInt32.lt_of_lt_of_le hlt (hleast u hu huholds))
    · rename_i hholds
      obtain ⟨⟨hmem, hs⟩, hleast⟩ := ih h
      exact ⟨⟨List.mem_append_left _ hmem, hs⟩, hstep _ hleast fun ht => absurd ht hholds⟩

/-- A range strictly inside another that holds the same line has the shorter span. -/
theorem StrictlyInside.span_lt {t s : Definition} (h : StrictlyInside t s) (hs : s.holds line = true)
    (ht : t.holds line = true) : t.lineEnd - t.lineStart < s.lineEnd - s.lineStart := by
  obtain ⟨hstart, hend, hne⟩ := h
  simp only [Definition.holds, Bool.and_eq_true, decide_eq_true_eq] at hs ht
  have hspan : ∀ u : Definition, u.lineStart ≤ line ∧ line ≤ u.lineEnd →
      (u.lineEnd - u.lineStart).toNat = u.lineEnd.toNat - u.lineStart.toNat :=
    fun u hu => UInt32.toNat_sub_of_le _ _ (UInt32.le_trans hu.1 hu.2)
  have hdiff : ¬(t.lineStart.toNat = s.lineStart.toNat ∧ t.lineEnd.toNat = s.lineEnd.toNat) := by
    rintro ⟨h₁, h₂⟩
    exact hne (Prod.ext (UInt32.toNat_inj.mp h₁) (UInt32.toNat_inj.mp h₂))
  rw [UInt32.lt_iff_toNat_lt, hspan t ht, hspan s hs]
  simp only [UInt32.le_iff_toNat_le] at hstart hend hs ht
  omega

/-- The shortest span is innermost, for every list of ranges. -/
theorem innermost_fallbackOwner (syms : List Definition) (line : UInt32) :
    Innermost (syms.filter (·.holds line)) (fallbackOwner syms line) := by
  refine ⟨?_, ?_, ?_⟩
  · constructor
    · intro h
      obtain ⟨s, hs⟩ := Option.ne_none_iff_exists'.mp h
      exact ⟨s, List.mem_filter.mpr (fallbackOwner_eq_some hs).1⟩
    · rintro ⟨s, hs⟩ hnone
      obtain ⟨hmem, hholds⟩ := List.mem_filter.mp hs
      rw [fallbackOwner_eq_none hnone s hmem] at hholds
      cases hholds
  · intro s hs
    exact List.mem_filter.mpr (fallbackOwner_eq_some hs).1
  · intro s hs t ht hinside
    obtain ⟨hmem, hholds⟩ := List.mem_filter.mp ht
    obtain ⟨⟨-, hs'⟩, hleast⟩ := fallbackOwner_eq_some hs
    exact UInt32.not_le.mpr (hinside.span_lt hs' hholds) (hleast t hmem hholds)

end Fallback

section Readers

/-- The definition `path:line` resolves to, if any. -/
def pathLineDefinition (db : Index) (input path : Text) (line : UInt32) (opts : ResolveOptions) : Option Definition :=
  let answer := resolvePathLine db input path line opts
  if answer.1.kind = .symbol then answer.2.head? else none

theorem pathLineDefinition_eq (db : Index) (input path : Text) (line : UInt32) (opts : ResolveOptions) :
    pathLineDefinition db input path line opts = innermost (enclosing db path line opts) := by
  rw [pathLineDefinition, resolvePathLine]
  split
  · rename_i s hs
    exact hs.symm
  · rename_i hs
    exact hs.symm

theorem enclosing_eq_filter (db : Index) (path : Text) (line : UInt32) (opts : ResolveOptions) :
    enclosing db path line opts = (opts.retain (symbolsForFile db path)).filter (·.holds line) := rfl

/-- `path:line` is innermost exactly when, of the retained definitions holding the line that start last, the
one read last ends first; the walk's choice for a reference without a recorded owner always is. -/
theorem enclosing_definition_innermost_iff (db : Index) (input path : Text) (line : UInt32) (opts : ResolveOptions) :
    (Innermost ((opts.retain (symbolsForFile db path)).filter (·.holds line))
        (pathLineDefinition db input path line opts) ↔
      LastEndsFirst ((opts.retain (symbolsForFile db path)).filter (·.holds line))) ∧
    ∀ (syms : List Definition) (fromSymbol : Option Text) (line : UInt32),
      (∀ qn, fromSymbol = some qn → ∀ s ∈ syms, s.qualifiedName ≠ qn) →
      Innermost (syms.filter (·.holds line)) (callerOwner syms fromSymbol line) := by
  constructor
  · rw [pathLineDefinition_eq, enclosing_eq_filter]
    exact innermost_innermost_iff _
  · intro syms fromSymbol line hnone
    have hfind : (fromSymbol.bind fun qn => syms.find? (·.qualifiedName = qn)) = none := by
      rw [Option.bind_eq_none_iff]
      intro qn hqn
      rw [List.find?_eq_none]
      intro s hs
      simpa using hnone qn hqn s hs
    rw [callerOwner, hfind]
    exact innermost_fallbackOwner syms line

/-- `typedef struct { struct Inner {` on the first line: the typedef is named after its body, so it is stored
after the struct inside it. -/
def inner : Definition :=
  { name := ['I'], qualifiedName := ['I'], kind := .struct, filePath := ['a', '.', 'c'], lineStart := 1, lineEnd := 3 }

def outer : Definition :=
  { name := ['O'], qualifiedName := ['O'], kind := .constant, filePath := ['a', '.', 'c'], lineStart := 1,
    lineEnd := 5 }

def typedefIndex : Index where
  files := [['a', '.', 'c']]
  symbols := [inner, outer]
  features := []
  callees := fun _ _ => []
  isTestPath := fun _ => false
  paths_valid := by decide
  symbols_joined := by decide
  ids_derived := nothing_derived
  ids_unique := List.nodup_nil

/-- The walk charges an unowned reference in line 2 to the struct. -/
theorem enclosing_definition_innermost_inner :
    callerOwner [inner, outer] none 2 = some inner ∧
    Innermost ([inner, outer].filter (·.holds 2)) (callerOwner [inner, outer] none 2) :=
  ⟨by decide, (enclosing_definition_innermost_iff typedefIndex ['a'] ['a'] 2 {}).2 [inner, outer] none 2 nofun⟩

/-- Line 2 resolves to the typedef, around the struct that holds the line. -/
theorem path_line_outer_of_tie :
    pathLineDefinition typedefIndex ['a', '.', 'c', ':', '2'] ['a', '.', 'c'] 2 {} = some outer ∧
    ¬Innermost ((({} : ResolveOptions).retain (symbolsForFile typedefIndex ['a', '.', 'c'])).filter (·.holds 2))
      (pathLineDefinition typedefIndex ['a', '.', 'c', ':', '2'] ['a', '.', 'c'] 2 {}) := by
  have houter : pathLineDefinition typedefIndex ['a', '.', 'c', ':', '2'] ['a', '.', 'c'] 2 {} = some outer := by
    decide
  refine ⟨houter, fun h => ?_⟩
  refine h.least outer houter inner (by decide) ⟨?_, ?_, ?_⟩
  · decide
  · decide
  · decide

end Readers

end Resolver
end Graph
end CodeSage
