import CodeSage.Parser.LexerSpans
import CodeSage.Parser.PreprocViews
import Mathlib.Data.List.Basic
import Mathlib.Data.List.Pairwise

/-!
# CodeSage.Parser.PreprocArmsCorrect

Where the blanked bytes of a reduced source come from: directives, whole arms, and braces and words `else` of arms that are not
kept. So the pass never fails, and what stands in kept arms only is left as written.
-/

namespace CodeSage
namespace Parser
namespace PreprocArms

open Lib Lib.Brackets

section Hiding

/-- The current arm of some open group is not the one kept. -/
def offKept (frames : List Frame) : Bool := frames.any fun frame => !frame.live

/-- A token in an arm that is not kept. -/
def Hidden (src : Bytes) (tokens : List Token) (token : Token) : Prop :=
  ∃ before behind, tokens = before ++ token :: behind ∧ offKept (view src before) = true

/-- What is seen of an arm stands in an arm that is not kept, when the arm or one around it is none. -/
def Covered (hidden : Token → Prop) : List Frame → Prop
  | [] => True
  | frame :: frames =>
    (offKept (frame :: frames) = true → ∀ token ∈ frame.seen, hidden token) ∧
      (offKept frames = true → ∀ token ∈ frame.kept.getD [], hidden token) ∧ Covered hidden frames

variable {src : Bytes} {tokens more : List Token} {token : Token} {frame : Frame} {frames : List Frame} {hidden hidden' : Token → Prop}

theorem Hidden.append (h : Hidden src tokens token) (more : List Token) : Hidden src (tokens ++ more) token := by
  obtain ⟨before, behind, rfl, hoff⟩ := h
  exact ⟨before, behind ++ more, by simp, hoff⟩

theorem view_concat (src : Bytes) (tokens : List Token) (token : Token) :
    view src (tokens ++ [token]) = viewToken src (view src tokens) token := by
  rw [view, List.foldl_append]
  rfl

theorem offKept_addSeen (more : List Token) (frames : List Frame) : offKept (addSeen more frames) = offKept frames := by
  cases frames <;> rfl

theorem Covered.mono (h : Covered hidden frames) (himp : ∀ token, hidden token → hidden' token) : Covered hidden' frames := by
  induction frames with
  | nil => trivial
  | cons frame frames ih =>
    obtain ⟨hseen, hkept, hrest⟩ := h
    exact ⟨fun hoff token hmem => himp _ (hseen hoff token hmem), fun hoff token hmem => himp _ (hkept hoff token hmem), ih hrest⟩

theorem Covered.addSeen (h : Covered hidden frames) (hmore : offKept frames = true → ∀ token ∈ more, hidden token) :
    Covered hidden (addSeen more frames) := by
  cases frames with
  | nil => trivial
  | cons frame frames =>
    obtain ⟨hseen, hkept, hrest⟩ := h
    refine ⟨fun hoff token hmem => ?_, hkept, hrest⟩
    rcases List.mem_append.mp hmem with hmem | hmem
    · exact hseen hoff token hmem
    · exact hmore hoff token hmem

theorem Covered.ended (h : Covered hidden (frame :: frames)) (hoff : offKept frames = true) :
    ∀ token ∈ frame.ended.getD [], hidden token := by
  obtain ⟨hseen, hkept, -⟩ := h
  intro token hmem
  rw [Frame.ended] at hmem
  split at hmem
  · refine hseen ?_ token hmem
    rw [offKept, List.any_cons, ← offKept, hoff, Bool.or_true]
  · exact hkept hoff token hmem

theorem Covered.start {kept : Option (List Token)} (h : Covered hidden frames)
    (hkept : offKept frames = true → ∀ token ∈ kept.getD [], hidden token) (taken : Bool) (literal : Option Bool) :
    Covered hidden (Frame.start kept taken literal :: frames) := ⟨fun _ _ hmem => absurd hmem List.not_mem_nil, hkept, h⟩

theorem Covered.directive (h : Covered hidden frames) (d : Directive) : Covered hidden (viewDirective d frames) := by
  cases d with
  | if_ literal => exact h.start (fun _ _ hmem => absurd hmem List.not_mem_nil) false literal
  | else_ literal =>
    cases frames with
    | nil => trivial
    | cons frame frames => exact Covered.start h.2.2 h.ended _ literal
  | endif =>
    cases frames with
    | nil => trivial
    | cons frame frames => exact Covered.addSeen h.2.2 h.ended

theorem covered_view (src : Bytes) (tokens : List Token) : Covered (Hidden src tokens) (view src tokens) := by
  induction tokens using List.reverseRecOn with
  | nil => trivial
  | append_singleton tokens token ih =>
    have hold : Covered (Hidden src (tokens ++ [token])) (view src tokens) := ih.mono fun _ h => h.append [token]
    rw [view_concat, viewToken]
    split
    · cases directive (textOf src token) with
      | none => exact hold
      | some d => exact hold.directive d
    · refine hold.addSeen fun hoff other hmem => ?_
      obtain rfl := List.mem_singleton.mp hmem
      exact ⟨tokens, [], rfl, hoff⟩

/-- What is seen, with the outermost group in front. -/
def trail : List Frame → List Token
  | [] => []
  | frame :: frames => trail frames ++ frame.kept.getD [] ++ frame.seen

theorem sublist_ended (frame : Frame) : (frame.ended.getD []).Sublist (frame.kept.getD [] ++ frame.seen) := by
  rw [Frame.ended]
  split
  · exact List.sublist_append_right _ _
  · exact List.sublist_append_left _ _

theorem trail_directive (d : Directive) (frames : List Frame) : (trail (viewDirective d frames)).Sublist (trail frames) := by
  cases d with
  | if_ literal => simp [viewDirective, Frame.start, trail]
  | else_ literal =>
    cases frames with
    | nil => exact List.Sublist.refl _
    | cons frame frames =>
      simp only [viewDirective, Frame.start, trail, List.append_nil, List.append_assoc]
      exact (sublist_ended frame).append_left _
  | endif =>
    cases frames with
    | nil => exact List.Sublist.refl _
    | cons frame frames =>
      cases frames with
      | nil => exact List.nil_sublist _
      | cons outer frames =>
        simp only [viewDirective, addSeen, trail, List.append_assoc]
        exact (((sublist_ended frame).append_left _).append_left _).append_left _

/-- No token is seen twice, and they are seen in order. -/
theorem trail_view (src : Bytes) (tokens : List Token) : (trail (view src tokens)).Sublist tokens := by
  induction tokens using List.reverseRecOn with
  | nil => exact List.Sublist.refl _
  | append_singleton tokens token ih =>
    rw [view_concat, viewToken]
    split
    · refine List.Sublist.trans ?_ (ih.trans (List.sublist_append_left _ _))
      cases directive (textOf src token) with
      | none => exact List.Sublist.refl _
      | some d => exact trail_directive d _
    · cases hview : view src tokens with
      | nil => exact List.nil_sublist _
      | cons frame frames =>
        rw [hview] at ih
        simp only [addSeen, trail, ← List.append_assoc] at ih ⊢
        exact ih.append_right [token]

end Hiding

section Blanks

/-- `(start, end)` of a directive -/
def IsDirective (tokens : List Token) (span : Span) : Prop :=
  ∃ token ∈ tokens, token.kind = .directive ∧ span = (token.start, token.stop)

def isBrace (token : Token) : Prop := token.kind = .punct (byte '{') ∨ token.kind = .punct (byte '}')

/-- What may be blanked. -/
inductive Blank (src : Bytes) (tokens : List Token) : Span → Prop where
  | directive {span : Span} (directive : IsDirective tokens span) : Blank src tokens span
  | brace {token : Token} (hidden : Hidden src tokens token) (brace : isBrace token) : Blank src tokens (token.start, token.start + 1)
  | elseWord {token : Token} (hidden : Hidden src tokens token) (ident : token.kind = .ident) (text : textOf src token = ascii "else") :
    Blank src tokens (token.start, token.stop)
  | arm {start stop : Span} (opens : IsDirective tokens start) (closes : IsDirective tokens stop) (before : start.2 ≤ stop.1)
    (inside : ∀ token ∈ tokens, start.2 ≤ token.start → token.start < stop.1 → token.kind = .directive ∨ Hidden src tokens token) :
    Blank src tokens (start.2, stop.1)

structure GroupFits (src : Bytes) (tokens : List Token) (group : Group) : Prop where
  arms : ∀ arm ∈ group.arms, IsDirective tokens arm.directive
  pending : ∀ span ∈ group.pending, Blank src tokens span

/-- What stands in the current arm is hidden, when the arm is not kept. -/
def CurrentFits (src : Bytes) (tokens : List Token) (group : Group) : Prop :=
  ∀ arm, group.arms.getLast? = some arm → arm.sandboxed = true → ∀ token ∈ tokens, arm.directive.2 ≤ token.start →
    token.kind = .directive ∨ Hidden src tokens token

structure Fits (src : Bytes) (tokens : List Token) (s : Scan) : Prop where
  groups : ∀ group ∈ s.groups, GroupFits src tokens group
  blanks : ∀ span ∈ s.blanks, Blank src tokens span

/-- The tokens of a source stand one behind the other. -/
def Ordered (tokens : List Token) : Prop :=
  (∀ token ∈ tokens, token.start < token.stop) ∧ tokens.Pairwise fun first second => first.stop ≤ second.start

variable {src : Bytes} {tokens : List Token} {token : Token} {span : Span} {group : Group} {groups : List Group} {s s' : Scan}
  {frames : List Frame}

theorem IsDirective.append (h : IsDirective tokens span) (more : List Token) : IsDirective (tokens ++ more) span := by
  obtain ⟨token, hmem, hdirective⟩ := h
  exact ⟨token, List.mem_append_left _ hmem, hdirective⟩

theorem Ordered.of_append (h : Ordered (tokens ++ [token])) :
    Ordered tokens ∧ token.start < token.stop ∧ ∀ other ∈ tokens, other.stop ≤ token.start := by
  obtain ⟨hpos, hpair⟩ := h
  rw [List.pairwise_append] at hpair
  exact ⟨⟨fun other hmem => hpos other (List.mem_append_left _ hmem), hpair.1⟩, hpos token (by simp),
    fun other hmem => hpair.2.2 other hmem token (by simp)⟩

/-- What may be blanked still may when there are tokens behind. -/
theorem Blank.append (h : Blank src tokens span) (hordered : Ordered (tokens ++ [token])) : Blank src (tokens ++ [token]) span := by
  cases h with
  | directive directive => exact .directive (directive.append _)
  | brace hidden brace => exact .brace (hidden.append _) brace
  | elseWord hidden ident text => exact .elseWord (hidden.append _) ident text
  | @arm start stop opens closes before inside =>
    refine .arm (opens.append _) (closes.append _) before fun other hmem hbehind hbefore => ?_
    rcases List.mem_append.mp hmem with hmem | hmem
    · exact (inside other hmem hbehind hbefore).imp_right fun h => h.append _
    · -- the token behind is behind the directive the arm ends at
      obtain rfl := List.mem_singleton.mp hmem
      obtain ⟨closing, hclosing, -, rfl⟩ := closes
      obtain ⟨hold, -, hlast⟩ := hordered.of_append
      have := hlast closing hclosing
      have := hold.1 closing hclosing
      dsimp only at hbefore
      omega

theorem GroupFits.append (h : GroupFits src tokens group) (hordered : Ordered (tokens ++ [token])) :
    GroupFits src (tokens ++ [token]) group where
  arms := fun arm hmem => (h.arms arm hmem).append _
  pending := fun span hmem => (h.pending span hmem).append hordered

theorem Fits.append (h : Fits src tokens s) (hordered : Ordered (tokens ++ [token])) : Fits src (tokens ++ [token]) s where
  groups := fun group hmem => (h.groups group hmem).append hordered
  blanks := fun span hmem => (h.blanks span hmem).append hordered

/-- The directives and the fate of the arms are fixed when they start. -/
def Keeps (f : Arm → Arm) : Prop := ∀ arm, (f arm).directive = arm.directive ∧ (f arm).sandboxed = arm.sandboxed

theorem mem_modifyLast {f : Arm → Arm} (hf : Keeps f) {arms : List Arm} {arm : Arm} (hmem : arm ∈ arms.modifyLast f) :
    ∃ old ∈ arms, arm.directive = old.directive := by
  rcases List.eq_nil_or_concat arms with rfl | ⟨init, last, rfl⟩
  · cases hmem
  · rw [List.concat_eq_append, List.modifyLast_concat, List.mem_append, List.mem_singleton] at hmem
    rcases hmem with hmem | rfl
    · exact ⟨arm, by simp [hmem], rfl⟩
    · exact ⟨last, by simp, (hf last).1⟩

theorem getLast?_modifyLast {f : Arm → Arm} {arms : List Arm} {arm : Arm} (h : (arms.modifyLast f).getLast? = some arm) :
    ∃ last, arms.getLast? = some last ∧ arm = f last := by
  rcases List.eq_nil_or_concat arms with rfl | ⟨init, last, rfl⟩
  · cases h
  · rw [List.concat_eq_append, List.modifyLast_concat, List.getLast?_concat, Option.some.injEq] at h
    exact ⟨last, by rw [List.concat_eq_append, List.getLast?_concat], h.symm⟩

theorem Fits.onArm {f : Arm → Arm} (h : Fits src tokens s) (hf : Keeps f) : Fits src tokens (s.onArm f) := by
  obtain ⟨hgroups, hblanks⟩ := h
  rw [Scan.onArm]
  split
  · exact ⟨hgroups, hblanks⟩
  · rename_i group groups hs
    rw [hs] at hgroups
    refine ⟨fun other hmem => ?_, hblanks⟩
    rcases List.mem_cons.mp hmem with rfl | hmem
    · obtain ⟨harms, hpending⟩ := hgroups group List.mem_cons_self
      refine ⟨fun arm harm => ?_, hpending⟩
      obtain ⟨old, hold, hsame⟩ := mem_modifyLast hf harm
      rw [hsame]
      exact harms old hold
    · exact hgroups other (List.mem_cons_of_mem _ hmem)

theorem currentFits_onArm {f : Arm → Arm} (h : ∀ group ∈ s.groups, CurrentFits src tokens group) (hf : Keeps f) :
    ∀ group ∈ (s.onArm f).groups, CurrentFits src tokens group := by
  rw [Scan.onArm]
  split
  · exact h
  · rename_i group groups hs
    rw [hs] at h
    intro other hmem
    rcases List.mem_cons.mp hmem with rfl | hmem
    · intro arm harm hsandboxed
      obtain ⟨last, hlast, rfl⟩ := getLast?_modifyLast harm
      rw [(hf last).1]
      exact h group List.mem_cons_self last hlast ((hf last).2.symm.trans hsandboxed)
    · exact h other (List.mem_cons_of_mem _ hmem)

/-- Where the current arm of an open group is not the one kept. -/
theorem Agree.offKept {sinks : List Sink} {bs : List Open} {ps : List Nat} {later : List Token} {arm : Arm}
    (h : Agree src groups frames sinks bs ps later) (hmem : group ∈ groups) (hlast : group.arms.getLast? = some arm)
    (hsandboxed : arm.sandboxed = true) : offKept frames = true := by
  induction groups generalizing frames sinks bs ps later with
  | nil => cases hmem
  | cons head groups ih =>
    cases frames with
    | nil => exact h.elim
    | cons frame frames =>
      rw [PreprocArms.offKept, List.any_cons]
      obtain ⟨⟨arms, last, harms, hlive, -⟩, hrest⟩ := h
      by_cases hframe : frame.live = true
      · rcases List.mem_cons.mp hmem with rfl | hmem
        · rw [harms, List.getLast?_concat, Option.some.injEq] at hlast
          rw [hlast, hsandboxed, hframe] at hlive
          cases hlive
        · rw [if_pos hframe] at hrest
          rw [← PreprocArms.offKept, ih hrest hmem, Bool.or_true]
      · rw [Bool.not_eq_true] at hframe
        rw [hframe, Bool.not_false, Bool.true_or]

/-- The current arms when another token is seen. -/
theorem CurrentFits.append (h : CurrentFits src tokens group)
    (hoff : ∀ arm, group.arms.getLast? = some arm → arm.sandboxed = true → offKept (view src tokens) = true) (token : Token) :
    CurrentFits src (tokens ++ [token]) group := by
  intro arm hlast hsandboxed other hmem hbehind
  rcases List.mem_append.mp hmem with hmem | hmem
  · exact (h arm hlast hsandboxed other hmem hbehind).imp_right fun h => h.append _
  · obtain rfl := List.mem_singleton.mp hmem
    exact Or.inr ⟨tokens, [], rfl, hoff arm hlast hsandboxed⟩

/-- What is known of an arm that is not kept when it ends. -/
theorem Agree.detached {sink : Sink} {rest : List Sink} {bs : List Open} {ps : List Nat} {arm : Arm}
    (h : Agree src (group :: groups) frames (sink :: rest) bs ps []) (hlast : group.arms.getLast? = some arm)
    (hsandboxed : arm.sandboxed = true) :
    ∃ frame more, frames = frame :: more ∧ frame.live = false ∧
      SinkAgrees src sink (bs.drop sink.braceBase) (ps.drop sink.parenBase) frame.seen := by
  cases frames with
  | nil => exact h.elim
  | cons frame frames =>
    obtain ⟨⟨arms, last, harms, hlive, -⟩, hrest⟩ := h
    rw [harms, List.getLast?_concat, Option.some.injEq] at hlast
    rw [hlast, hsandboxed] at hlive
    have hframe : frame.live = false := by simpa using hlive
    rw [hframe, if_neg Bool.false_ne_true] at hrest
    obtain ⟨sink', rest', hsinks, -, -, hagrees, -⟩ := hrest
    obtain ⟨rfl, rfl⟩ := List.cons.inj hsinks
    rw [List.append_nil] at hagrees
    exact ⟨frame, frames, rfl, hframe, hagrees⟩

theorem mem_braces {seen : List Token} {side : Side} {x : Nat} (h : (side, x) ∈ braces seen) :
    ∃ token ∈ seen, isBrace token ∧ token.start = x := by
  obtain ⟨token, hmem, hbracket⟩ := List.mem_filterMap.mp h
  rw [bracket] at hbracket
  split at hbracket
  · rename_i hkind
    cases hbracket
    exact ⟨token, hmem, Or.inl hkind, rfl⟩
  · split at hbracket
    · rename_i hkind
      cases hbracket
      exact ⟨token, hmem, Or.inr hkind, rfl⟩
    · cases hbracket

theorem blank_unmatched {seen : List Token} {x : Nat} (h : ∀ token ∈ seen, Hidden src tokens token)
    (hmem : x ∈ (unmatched (braces seen)).closers ++ (unmatched (braces seen)).openers) : Blank src tokens (x, x + 1) := by
  obtain ⟨⟨side, y⟩, hbracket, rfl⟩ := List.mem_map.mp (mem_of_mem_unmatched hmem)
  obtain ⟨token, htoken, hbrace, rfl⟩ := mem_braces hbracket
  exact .brace (h token htoken) hbrace

theorem ElseWord.blank {seen : List Token} (hword : ElseWord src seen span) (h : ∀ token ∈ seen, Hidden src tokens token) :
    Blank src tokens span := by
  obtain ⟨token, hmem, hkind, htext, rfl⟩ := hword
  exact .elseWord (h token hmem) hkind htext

theorem blank_detached {sink : Sink} {rest : List Sink} {arm : Arm} (hs : s.groups = group :: groups) (hsinks : s.sinks = sink :: rest)
    (hagree : Agree src s.groups (view src tokens) s.sinks s.braces s.parens []) (hlast : group.arms.getLast? = some arm)
    (hsandboxed : arm.sandboxed = true) (hfits : GroupFits src tokens group) (hcurrent : CurrentFits src tokens group)
    (hordered : Ordered (tokens ++ [token])) (hkind : token.kind = .directive) :
    ∀ span ∈ detached group arm sink s.braces s.parens token.start, Blank src (tokens ++ [token]) span := by
  rw [hs, hsinks] at hagree
  obtain ⟨frame, more, hview, hlive, hagrees⟩ := hagree.detached hlast hsandboxed
  have hhidden : ∀ token ∈ frame.seen, Hidden src tokens token := by
    have hcovered := covered_view src tokens
    rw [hview] at hcovered
    refine hcovered.1 ?_
    rw [offKept, List.any_cons, hlive, Bool.not_false, Bool.true_or]
  obtain ⟨-, -, hbefore⟩ := hordered.of_append
  have hopens := hfits.arms arm (List.mem_of_getLast? hlast)
  intro span hmem
  simp only [detached] at hmem
  split at hmem
  · obtain rfl := List.mem_singleton.mp hmem
    obtain ⟨opening, hopening, hdirective, hspan⟩ := hopens
    refine .arm ⟨opening, List.mem_append_left _ hopening, hdirective, hspan⟩ ⟨token, by simp, hkind, rfl⟩ ?_ ?_
    · rw [hspan]
      exact hbefore opening hopening
    · intro other hother hbehind _
      rcases List.mem_append.mp hother with hother | hother
      · exact (hcurrent arm hlast hsandboxed other hother hbehind).imp_right fun h => h.append _
      · exact Or.inl ((List.mem_singleton.mp hother) ▸ hkind)
  · refine Blank.append ?_ hordered
    simp only [List.mem_append, List.mem_flatMap, List.mem_cons, List.mem_map] at hmem
    rcases hmem with (hmem | ⟨closer, hcloser, rfl | hmem⟩) | ⟨opening, hopening, rfl⟩
    · exact (hagrees.elses span (List.mem_append_left _ hmem)).blank hhidden
    · refine blank_unmatched hhidden (List.mem_append_left _ ?_)
      rw [← hagrees.closers]
      exact List.mem_map_of_mem hcloser
    · exact (hagrees.elses span (List.mem_append_right _ (List.mem_flatMap.mpr ⟨closer, hcloser, hmem⟩))).blank hhidden
    · refine blank_unmatched hhidden (List.mem_append_right _ ?_)
      rw [← hagrees.openers]
      exact List.mem_map_of_mem hopening

end Blanks

section Steps

variable {src : Bytes} {tokens : List Token} {token : Token} {span : Span} {group : Group} {groups : List Group} {s s' : Scan}

theorem fits_startArm {literal : Option Bool} (hs : s.groups = group :: groups) (h : Fits src tokens s)
    (hrest : ∀ group ∈ groups, CurrentFits src tokens group) (hdirective : IsDirective tokens span)
    (hfresh : ∀ token ∈ tokens, token.start < span.2) (h' : s.startArm span literal = some s') :
    Fits src tokens s' ∧ ∀ group ∈ s'.groups, CurrentFits src tokens group := by
  obtain ⟨hgroups, hblanks⟩ := h
  rw [hs] at hgroups
  rw [Scan.startArm, hs] at h'
  cases h'
  refine ⟨⟨fun other hmem => ?_, hblanks⟩, fun other hmem => ?_⟩
  · rcases List.mem_cons.mp hmem with rfl | hmem
    · obtain ⟨harms, hpending⟩ := hgroups group List.mem_cons_self
      refine ⟨fun arm harm => ?_, hpending⟩
      rcases List.mem_append.mp harm with harm | harm
      · exact harms arm harm
      · rw [List.mem_singleton.mp harm]
        exact hdirective
    · exact hgroups other (List.mem_cons_of_mem _ hmem)
  · rcases List.mem_cons.mp hmem with rfl | hmem
    · intro arm hlast _ other hother hbehind
      rw [List.getLast?_concat, Option.some.injEq] at hlast
      rw [← hlast] at hbehind
      exact absurd (hfresh other hother) (Nat.not_lt.mpr hbehind)
    · exact hrest other hmem

theorem fits_endArm (hs : s.groups = group :: groups) (h : Fits src tokens s) (hcurrent : ∀ group ∈ s.groups, CurrentFits src tokens group)
    (hagree : Agree src s.groups (view src tokens) s.sinks s.braces s.parens []) (hordered : Ordered (tokens ++ [token]))
    (hkind : token.kind = .directive) (h' : s.endArm token.start = some s') :
    Fits src (tokens ++ [token]) s' ∧ ∃ group', s'.groups = group' :: groups := by
  have hgroup := h.groups group (by simp [hs])
  rw [Scan.endArm, hs] at h'
  obtain ⟨arm, hlast, h'⟩ := Option.bind_eq_some_iff.mp h'
  split at h'
  · rename_i hsandboxed
    cases hsinks : s.sinks with
    | nil => simp [hsinks] at h'
    | cons sink rest =>
      simp only [hsinks] at h'
      split at h'
      · cases h'
        refine ⟨⟨fun other hmem => ?_, fun span hmem => (h.blanks span hmem).append hordered⟩, _, rfl⟩
        rcases List.mem_cons.mp hmem with rfl | hmem
        · refine ⟨fun arm harm => (hgroup.arms arm harm).append _, fun span hmem => ?_⟩
          rcases List.mem_append.mp hmem with hmem | hmem
          · exact (hgroup.pending span hmem).append hordered
          · exact blank_detached hs hsinks hagree hlast hsandboxed hgroup (hcurrent group (by simp [hs])) hordered hkind span hmem
        · exact (h.groups other (by simp [hs, hmem])).append hordered
      · cases h'
  · cases h'
    exact ⟨h.append hordered, group, hs⟩

theorem blanks_onArm (s : Scan) (f : Arm → Arm) : (s.onArm f).blanks = s.blanks := by
  rw [Scan.onArm]
  split <;> rfl

theorem blanks_token (s : Scan) (kind : Kind) (start stop : Nat) (text : Bytes) : (s.token kind start stop text).blanks = s.blanks := by
  cases kind with
  | punct b =>
    simp only [Scan.token]
    split
    · exact blanks_onArm s _
    split
    · rw [Scan.closeBrace]
      split <;> exact blanks_onArm s _
    split
    · exact blanks_onArm s _
    split
    · rw [Scan.closeParen]
      split <;> exact blanks_onArm s _
    · exact blanks_onArm s _
  | _ => exact blanks_onArm s _

theorem keeps_take (kept : Arm) : Keeps (·.take kept) := fun _ => ⟨rfl, rfl⟩

theorem keeps_see (kind : Kind) (text : Bytes) : Keeps (·.see kind text) := fun arm => by
  refine ⟨?_, sandboxed_see arm kind text⟩
  simp only [Arm.see]
  split_ifs <;> rfl

theorem fits_resolve (hs : s.groups = group :: groups) (h : Fits src tokens s) (hrest : ∀ group ∈ groups, CurrentFits src tokens group)
    (hdirective : IsDirective tokens span) (h' : s.resolve span = some s') :
    Fits src tokens s' ∧ ∀ group ∈ s'.groups, CurrentFits src tokens group := by
  have hgroup := h.groups group (by simp [hs])
  have hgroups : ∀ group ∈ groups, GroupFits src tokens group := fun other hmem => h.groups other (by simp [hs, hmem])
  rw [Scan.resolve, hs] at h'
  cases hkept : group.kept with
  | none =>
    simp only [hkept] at h'
    cases h'
    exact ⟨⟨hgroups, h.blanks⟩, hrest⟩
  | some kept =>
    simp only [hkept] at h'
    obtain ⟨first, -, h'⟩ := Option.bind_eq_some_iff.mp h'
    obtain ⟨keptArm, -, h'⟩ := Option.bind_eq_some_iff.mp h'
    cases h'
    split
    · refine ⟨Fits.onArm ⟨hgroups, fun other hmem => ?_⟩ (keeps_take keptArm), currentFits_onArm hrest (keeps_take keptArm)⟩
      simp only [List.mem_append, List.mem_map, List.mem_singleton] at hmem
      rcases hmem with ((hmem | hmem) | ⟨arm, harm, rfl⟩) | rfl
      · exact h.blanks other hmem
      · exact hgroup.pending other hmem
      · exact .directive (hgroup.arms arm harm)
      · exact .directive hdirective
    · split
      · exact ⟨Fits.onArm ⟨hgroups, h.blanks⟩ (keeps_take keptArm), currentFits_onArm hrest (keeps_take keptArm)⟩
      · exact ⟨Fits.onArm ⟨hgroups, h.blanks⟩ (keeps_take keptArm), currentFits_onArm hrest (keeps_take keptArm)⟩

theorem fits_token (h : Fits src tokens s) (hcurrent : ∀ group ∈ s.groups, CurrentFits src tokens group)
    (hagree : Agree src s.groups (view src tokens) s.sinks s.braces s.parens []) (hordered : Ordered (tokens ++ [token])) (text : Bytes) :
    Fits src (tokens ++ [token]) (s.token token.kind token.start token.stop text) ∧
      ∀ group ∈ (s.token token.kind token.start token.stop text).groups, CurrentFits src (tokens ++ [token]) group := by
  have hkeeps := keeps_see token.kind text
  obtain ⟨hgroups, hblanks⟩ := (h.append hordered).onArm hkeeps
  constructor
  · refine ⟨by rwa [groups_token], ?_⟩
    rwa [blanks_token, ← blanks_onArm s (·.see token.kind text)]
  · rw [groups_token]
    refine currentFits_onArm (fun group hmem => ?_) hkeeps
    exact (hcurrent group hmem).append (fun arm hlast hsandboxed => hagree.offKept hmem hlast hsandboxed) token

theorem fits_directive (h : Fits src tokens s) (hcurrent : ∀ group ∈ s.groups, CurrentFits src tokens group)
    (hagree : Agree src s.groups (view src tokens) s.sinks s.braces s.parens []) (hordered : Ordered (tokens ++ [token]))
    (hkind : token.kind = .directive) {text : Bytes} (hs : s.directive token.start token.stop text = some s') :
    Fits src (tokens ++ [token]) s' ∧ ∀ group ∈ s'.groups, CurrentFits src (tokens ++ [token]) group := by
  have hdirective : IsDirective (tokens ++ [token]) (token.start, token.stop) := ⟨token, by simp, hkind, rfl⟩
  have hall : ∀ group ∈ s.groups, CurrentFits src (tokens ++ [token]) group := fun group hmem =>
    (hcurrent group hmem).append (fun arm hlast hsandboxed => hagree.offKept hmem hlast hsandboxed) token
  have hfresh : ∀ other ∈ tokens ++ [token], other.start < token.stop := by
    obtain ⟨hold, hpos, hbefore⟩ := hordered.of_append
    intro other hmem
    rcases List.mem_append.mp hmem with hmem | hmem
    · have := hold.1 other hmem
      have := hbefore other hmem
      omega
    · rwa [List.mem_singleton.mp hmem]
  rw [Scan.directive] at hs
  cases hd : PreprocArms.directive text with
  | none =>
    simp only [hd] at hs
    cases hs
    exact ⟨h.append hordered, hall⟩
  | some d =>
    simp only [hd] at hs
    cases d with
    | if_ literal =>
      obtain ⟨hgroups, hblanks⟩ := h.append hordered
      refine fits_startArm (s := { (s.onSink id) with groups := _ :: s.groups }) rfl ⟨fun other hmem => ?_, hblanks⟩ hall hdirective
        hfresh hs
      rcases List.mem_cons.mp hmem with rfl | hmem
      · exact ⟨by simp, by simp⟩
      · exact hgroups other hmem
    | else_ literal =>
      cases hgroups : s.groups with
      | nil =>
        simp only [hgroups, List.isEmpty_nil, if_true] at hs
        cases hs
        exact ⟨h.append hordered, hall⟩
      | cons group groups =>
        simp only [hgroups, List.isEmpty_cons, Bool.false_eq_true, if_false] at hs
        obtain ⟨s₁, hend, hs⟩ := Option.bind_eq_some_iff.mp hs
        obtain ⟨hfits, group', hs₁⟩ := fits_endArm hgroups h hcurrent hagree hordered hkind hend
        exact fits_startArm hs₁ hfits (fun other hmem => hall other (by simp [hgroups, hmem])) hdirective hfresh hs
    | endif =>
      cases hgroups : s.groups with
      | nil =>
        simp only [hgroups, List.isEmpty_nil, if_true] at hs
        cases hs
        exact ⟨h.append hordered, hall⟩
      | cons group groups =>
        simp only [hgroups, List.isEmpty_cons, Bool.false_eq_true, if_false] at hs
        obtain ⟨s₁, hend, hs⟩ := Option.bind_eq_some_iff.mp hs
        obtain ⟨hfits, group', hs₁⟩ := fits_endArm hgroups h hcurrent hagree hordered hkind hend
        exact fits_resolve hs₁ hfits (fun other hmem => hall other (by simp [hgroups, hmem])) hdirective hs

theorem fits_scanToken (h : Fits src tokens s) (hcurrent : ∀ group ∈ s.groups, CurrentFits src tokens group)
    (hagree : Agree src s.groups (view src tokens) s.sinks s.braces s.parens []) (hordered : Ordered (tokens ++ [token]))
    (hs : scanToken src s token = some s') :
    Fits src (tokens ++ [token]) s' ∧ ∀ group ∈ s'.groups, CurrentFits src (tokens ++ [token]) group := by
  rw [scanToken] at hs
  obtain ⟨text, -, hs⟩ := Option.bind_eq_some_iff.mp hs
  split at hs
  · rename_i hkind
    exact fits_directive h hcurrent hagree hordered hkind hs
  · cases hs
    exact fits_token h hcurrent hagree hordered text

theorem scanTokens_concat (src : Bytes) (tokens : List Token) (token : Token) :
    scanTokens src (tokens ++ [token]) = (scanTokens src tokens).bind fun s => scanToken src s token := by
  rw [scanTokens, scanTokens, List.foldlM_append]
  cases tokens.foldlM (scanToken src) {} <;> simp

theorem fits_scanTokens (hordered : Ordered tokens) (hbound : ∀ token ∈ tokens, token.stop ≤ src.length) :
    ∃ s, scanTokens src tokens = some s ∧ Agree src s.groups (view src tokens) s.sinks s.braces s.parens [] ∧ Fits src tokens s ∧
      ∀ group ∈ s.groups, CurrentFits src tokens group := by
  induction tokens using List.reverseRecOn with
  | nil => exact ⟨{}, rfl, trivial, ⟨by simp, by simp⟩, by simp⟩
  | append_singleton tokens token ih =>
    obtain ⟨hold, hpos, hbefore⟩ := hordered.of_append
    obtain ⟨s, hs, hagree, hfits, hcurrent⟩ := ih hold fun token hmem => hbound token (List.mem_append_left _ hmem)
    obtain ⟨s', hs', hagree'⟩ := agree_scanToken hagree (Nat.le_of_lt hpos) (hbound token (by simp))
    refine ⟨s', ?_, ?_, fits_scanToken hfits hcurrent hagree hordered hs'⟩
    · rw [scanTokens_concat, hs]
      exact hs'
    · rw [view_concat]
      exact hagree'

end Steps

section Results

variable {src : Bytes} {tokens : List Token} {token : Token} {span : Span} {s : Scan}

theorem ordered_tokenize (src : Bytes) : Ordered (tokenize src) :=
  ⟨fun token hmem => ((tiled_tokenize src).within token hmem).2.1, (tiled_tokenize src).increasing⟩

theorem stop_le_of_mem (hmem : token ∈ tokenize src) : token.stop ≤ src.length := by
  have := ((tiled_tokenize src).within token hmem).2.2
  omega

/-- At every token of a source, the scan has the depths and the brackets without a partner of what is seen of each open arm. -/
theorem scan_accounts (src : Bytes) (n : Nat) :
    ∃ s, scanTokens src ((tokenize src).take n) = some s ∧
      Agree src s.groups (view src ((tokenize src).take n)) s.sinks s.braces s.parens [] := by
  have hmem : ∀ token ∈ (tokenize src).take n, token ∈ tokenize src := fun token => List.mem_of_mem_take
  refine agree_scanTokens fun token htoken => ⟨?_, stop_le_of_mem (hmem token htoken)⟩
  exact Nat.le_of_lt ((ordered_tokenize src).1 token (hmem token htoken))

theorem Blank.within (h : Blank src (tokenize src) span) : span.1 ≤ span.2 ∧ span.2 ≤ src.length := by
  have hpos := (ordered_tokenize src).1
  have hmem : ∀ {token}, Hidden src (tokenize src) token → token ∈ tokenize src := by
    rintro token ⟨before, behind, hsplit, -⟩
    simp [hsplit]
  cases h with
  | directive directive =>
    obtain ⟨token, htoken, -, rfl⟩ := directive
    exact ⟨Nat.le_of_lt (hpos token htoken), stop_le_of_mem htoken⟩
  | brace hidden _ =>
    have := hpos _ (hmem hidden)
    have := stop_le_of_mem (hmem hidden)
    dsimp only
    omega
  | elseWord hidden _ _ => exact ⟨Nat.le_of_lt (hpos _ (hmem hidden)), stop_le_of_mem (hmem hidden)⟩
  | arm _ closes before _ =>
    obtain ⟨token, htoken, -, rfl⟩ := closes
    have := hpos _ htoken
    have := stop_le_of_mem htoken
    exact ⟨before, by dsimp only; omega⟩

def covers (spans : List Span) (i : Nat) : Bool := spans.any fun span => decide (span.1 ≤ i ∧ i < span.2)

/-- The source with the bytes of the spans blanked, but for the line breaks. -/
def blanked (spans : List Span) (src : Bytes) : Bytes := src.mapIdx fun i b => if covers spans i then blankByte b else b

theorem blankByte_blankByte (b : UInt8) : blankByte (blankByte b) = blankByte b := by
  by_cases h : isBreak b = true
  · simp [blankByte, h]
  · simp [blankByte, h]

theorem blankSpan_eq {out : Bytes} (h : span.1 ≤ span.2 ∧ span.2 ≤ out.length) : blankSpan out span = some (blanked [span] out) := by
  obtain ⟨a, b⟩ := span
  obtain ⟨hab, hb⟩ : a ≤ b ∧ b ≤ out.length := h
  rw [blankSpan, slice, if_pos ⟨hab, hb⟩, Option.map_some, Option.some.injEq]
  dsimp only
  refine List.ext_getElem? fun i => ?_
  have hcovers : covers [(a, b)] i = decide (a ≤ i ∧ i < b) := by simp [covers]
  have hleft : (out.take a).length = a := by rw [List.length_take]; omega
  have hmiddle : (((out.drop a).take (b - a)).map blankByte).length = b - a := by
    rw [List.length_map, List.length_take, List.length_drop]
    omega
  rw [blanked, List.getElem?_mapIdx, hcovers, List.append_assoc]
  by_cases hi : i < a
  · rw [List.getElem?_append_left (by omega), List.getElem?_take_of_lt hi, decide_eq_false (by omega)]
    cases out[i]? <;> rfl
  · rw [List.getElem?_append_right (by omega), hleft]
    by_cases hi' : i < b
    · rw [List.getElem?_append_left (by omega), List.getElem?_map, List.getElem?_take_of_lt (by omega), List.getElem?_drop,
        Nat.add_sub_cancel' (by omega), decide_eq_true (by omega)]
      rfl
    · rw [List.getElem?_append_right (by omega), hmiddle, List.getElem?_drop, decide_eq_false (by omega),
        show b + (i - a - (b - a)) = i by omega]
      cases out[i]? <;> rfl

theorem blanked_blanked (span : Span) (spans : List Span) (out : Bytes) : blanked spans (blanked [span] out) = blanked (span :: spans) out := by
  have hcons : ∀ i, covers (span :: spans) i = (covers [span] i || covers spans i) := fun i => by simp [covers]
  rw [blanked, blanked, blanked, List.mapIdx_mapIdx]
  congr 1
  funext i b
  rw [hcons]
  cases covers [span] i <;> cases covers spans i <;> simp [blankByte_blankByte]

theorem blankSpans_eq {spans : List Span} {out : Bytes} (h : ∀ span ∈ spans, span.1 ≤ span.2 ∧ span.2 ≤ out.length) :
    spans.foldlM blankSpan out = some (blanked spans out) := by
  induction spans generalizing out with
  | nil =>
    have hsame : blanked [] out = out := List.ext_getElem? fun i => by rw [blanked, List.getElem?_mapIdx]; cases out[i]? <;> rfl
    rw [hsame]
    rfl
  | cons span spans ih =>
    have hnext : ∀ other ∈ spans, other.1 ≤ other.2 ∧ other.2 ≤ (blanked [span] out).length := by
      rw [blanked, List.length_mapIdx]
      exact fun other hmem => h other (List.mem_cons_of_mem _ hmem)
    rw [List.foldlM_cons, blankSpan_eq (h span List.mem_cons_self)]
    refine (ih hnext).trans ?_
    rw [blanked_blanked]

/-- The pass never fails, and what it blanks are directives, arms, and braces and words `else` of arms that are not kept. -/
theorem selectSplitArms_blanks (src : Bytes) : selectSplitArms src = some none ∨
    ∃ spans, spans ≠ [] ∧ (∀ span ∈ spans, Blank src (tokenize src) span) ∧ selectSplitArms src = some (some (blanked spans src)) := by
  rw [selectSplitArms]
  split
  · obtain ⟨s, hs, -, hfits, -⟩ := fits_scanTokens (ordered_tokenize src) fun token => stop_le_of_mem
    rw [hs, Option.bind_some]
    split
    · exact Or.inl rfl
    · rename_i hne
      refine Or.inr ⟨s.blanks, fun hnil => hne (by rw [hnil]; rfl), hfits.blanks, ?_⟩
      rw [blankSpans_eq fun span hmem => (hfits.blanks span hmem).within]
      rfl
  · exact Or.inl rfl

theorem Ordered.apart {other : Token} (h : Ordered tokens) (hmem : token ∈ tokens) (hother : other ∈ tokens) (hne : token ≠ other) :
    token.stop ≤ other.start ∨ other.stop ≤ token.start := by
  have : Std.Symm fun first second : Token => first.stop ≤ second.start ∨ second.stop ≤ first.start := ⟨fun _ _ => Or.symm⟩
  have hpair : tokens.Pairwise fun first second => first.stop ≤ second.start ∨ second.stop ≤ first.start := h.2.imp Or.inl
  exact hpair.forall hmem hother hne

/-- A token has one place. -/
theorem Ordered.not_hidden {before behind : List Token} (h : Ordered tokens) (htokens : tokens = before ++ token :: behind)
    (hkept : offKept (view src before) = false) : ¬Hidden src tokens token := by
  rintro ⟨before', behind', htokens', hoff⟩
  have hnot : ∀ {a b : List Token}, tokens = a ++ token :: b → token ∉ a ∧ token ∉ b := by
    rintro a b rfl
    obtain ⟨hpos, hpair⟩ := h
    have hself := hpos token (by simp)
    rw [List.pairwise_append, List.pairwise_cons] at hpair
    refine ⟨fun hmem => ?_, fun hmem => ?_⟩
    · have := hpair.2.2 token hmem token List.mem_cons_self
      omega
    · have := hpair.2.1.1 token hmem
      omega
  have hsame := htokens'.symm.trans htokens
  rw [List.append_cons_inj_of_notMem (hnot htokens').1 (hnot htokens').2] at hsame
  rw [← hsame.1, hoff] at hkept
  cases hkept

/-- Nothing of a token that stands in kept arms only may be blanked. -/
theorem Blank.apart {before behind : List Token} (h : Blank src (tokenize src) span) (htokens : tokenize src = before ++ token :: behind)
    (hkind : token.kind ≠ .directive) (hkept : offKept (view src before) = false) : span.2 ≤ token.start ∨ token.stop ≤ span.1 := by
  have hordered := ordered_tokenize src
  have hmem : token ∈ tokenize src := by simp [htokens]
  have hnot : ¬Hidden src (tokenize src) token := hordered.not_hidden htokens hkept
  have hhidden : ∀ {other}, Hidden src (tokenize src) other → other ∈ tokenize src ∧ token ≠ other := by
    intro other hother
    refine ⟨?_, fun heq => hnot (heq ▸ hother)⟩
    obtain ⟨before', behind', hsplit, -⟩ := hother
    simp [hsplit]
  cases h with
  | directive directive =>
    obtain ⟨other, hother, hdirective, rfl⟩ := directive
    exact (hordered.apart hmem hother fun heq => hkind (heq ▸ hdirective)).symm
  | brace hidden _ =>
    obtain ⟨hother, hne⟩ := hhidden hidden
    have := hordered.1 _ hother
    refine (hordered.apart hmem hother hne).symm.imp_left fun _ => ?_
    dsimp only
    omega
  | elseWord hidden _ _ =>
    obtain ⟨hother, hne⟩ := hhidden hidden
    exact (hordered.apart hmem hother hne).symm
  | arm opens closes before inside =>
    obtain ⟨opening, hopening, hopens, rfl⟩ := opens
    obtain ⟨closing, hclosing, hcloses, rfl⟩ := closes
    have hpos := hordered.1 opening hopening
    rcases hordered.apart hmem hopening fun heq => hkind (heq ▸ hopens) with hbefore | hbehind
    · right
      dsimp only
      omega
    · rcases hordered.apart hmem hclosing fun heq => hkind (heq ▸ hcloses) with hbefore' | hbehind'
      · have := hordered.1 token hmem
        exact ((inside token hmem hbehind (by dsimp only; omega)).elim hkind hnot).elim
      · have := hordered.1 closing hclosing
        left
        dsimp only
        omega

theorem textOf_blanked {spans : List Span} (h : ∀ i, token.start ≤ i → i < token.stop → covers spans i = false) :
    textOf (blanked spans src) token = textOf src token := by
  refine List.ext_getElem? fun i => ?_
  rw [textOf, textOf]
  by_cases hi : i < token.stop - token.start
  · rw [List.getElem?_take_of_lt hi, List.getElem?_take_of_lt hi, List.getElem?_drop, List.getElem?_drop, blanked,
      List.getElem?_mapIdx, h (token.start + i) (by omega) (by omega)]
    cases src[token.start + i]? <;> rfl
  · rw [List.getElem?_take_eq_none (by omega), List.getElem?_take_eq_none (by omega)]

/-- What stands in kept arms only is left as written. -/
theorem kept_as_written {n : Nat} {out : Bytes} (h : selectSplitArms src = some (some out)) (htoken : (tokenize src)[n]? = some token)
    (hkind : token.kind ≠ .directive) (hkept : offKept (view src ((tokenize src).take n)) = false) :
    textOf out token = textOf src token := by
  have htokens : tokenize src = (tokenize src).take n ++ token :: (tokenize src).drop (n + 1) := by
    obtain ⟨hn, rfl⟩ := List.getElem?_eq_some_iff.mp htoken
    rw [← List.drop_eq_getElem_cons hn, List.take_append_drop]
  rcases selectSplitArms_blanks src with hnone | ⟨spans, -, hblanks, hsome⟩
  · rw [hnone] at h
    cases h
  · rw [hsome, Option.some.injEq, Option.some.injEq] at h
    rw [← h]
    refine textOf_blanked fun i hstart hstop => ?_
    rw [covers, List.any_eq_false]
    intro span hmem
    have := (hblanks span hmem).apart htokens hkind hkept
    rw [decide_eq_true_iff]
    omega

/-- The header of a statement in two forms. -/
def splitHeader : Bytes := ascii "f()\x7b\n#if A\na\x7b\n#else\n(b)\x7b\n#endif\n\x7d\x7d"

theorem kept_as_written_splitHeader : textOf (ascii "f()\x7b\n     \na\x7b\n     \n(b) \n      \n\x7d\x7d") ⟨.punct (byte '{'), 12, 13⟩ =
    textOf splitHeader ⟨.punct (byte '{'), 12, 13⟩ :=
  @kept_as_written splitHeader _ 6 _ (by decide +kernel) (by decide +kernel) (by decide) (by decide +kernel)

theorem sublist_braces (seen : List Token) : ((braces seen).map Prod.snd).Sublist (seen.map Token.start) := by
  induction seen with
  | nil => exact List.Sublist.refl _
  | cons token seen ih =>
    rw [braces, List.filterMap_cons, List.map_cons]
    have hstart : ∀ side x, bracket (byte '{') (byte '}') token = some (side, x) → x = token.start := by
      intro side x h
      rw [bracket] at h
      split at h
      · cases h; rfl
      · split at h <;> cases h
        rfl
    cases hbracket : bracket (byte '{') (byte '}') token with
    | none => exact ih.cons _
    | some labelled =>
      obtain ⟨side, x⟩ := labelled
      dsimp only
      rw [List.map_cons, hstart side x hbracket]
      exact ih.cons_cons _

theorem Ordered.sublist {seen : List Token} (h : Ordered tokens) (hsub : seen.Sublist tokens) : Ordered seen :=
  ⟨fun token hmem => h.1 token (hsub.subset hmem), h.2.sublist hsub⟩

theorem Ordered.nodup_starts (h : Ordered tokens) : (tokens.map Token.start).Nodup := by
  obtain ⟨hpos, hpair⟩ := h
  rw [List.Nodup, List.pairwise_map]
  refine hpair.imp_of_mem fun hfirst _ hbefore heq => ?_
  have := hpos _ hfirst
  omega

theorem Ordered.eq_of_start {other : Token} (h : Ordered tokens) (hmem : token ∈ tokens) (hother : other ∈ tokens)
    (hstart : token.start = other.start) : token = other := by
  by_contra hne
  have := h.1 token hmem
  have := h.1 other hother
  have := h.apart hmem hother hne
  omega

/-- The brackets without a partner, and the words `else` that have lost theirs. -/
def looseEnds (sink : Sink) (opened : List Open) : List Span :=
  sink.leadingElse.toList ++ sink.closers.flatMap (fun closer => (closer.offset, closer.offset + 1) :: closer.elseAfter.toList)
    ++ opened.map fun o => (o.offset, o.offset + 1)

theorem mem_looseEnds {sink : Sink} {opened : List Open} {x : Nat} : x ∈ (looseEnds sink opened).map Prod.fst ↔
    (∃ span ∈ sink.elses, span.1 = x) ∨ x ∈ sink.closers.map Closer.offset ++ opened.map Open.offset := by
  rw [looseEnds, Sink.elses, List.map_append, List.map_append, List.mem_append, List.mem_append, List.mem_append, List.map_map]
  have hclosers : x ∈ (sink.closers.flatMap fun closer => (closer.offset, closer.offset + 1) :: closer.elseAfter.toList).map Prod.fst ↔
      x ∈ sink.closers.map Closer.offset ∨ ∃ span ∈ sink.closers.flatMap fun closer => closer.elseAfter.toList, span.1 = x := by
    simp only [List.mem_map, List.mem_flatMap, List.mem_cons]
    constructor
    · rintro ⟨span, ⟨closer, hcloser, rfl | hspan⟩, rfl⟩
      · exact Or.inl ⟨closer, hcloser, rfl⟩
      · exact Or.inr ⟨span, ⟨closer, hcloser, hspan⟩, rfl⟩
    · rintro (⟨closer, hcloser, rfl⟩ | ⟨span, ⟨closer, hcloser, hspan⟩, rfl⟩)
      · exact ⟨_, ⟨closer, hcloser, Or.inl rfl⟩, rfl⟩
      · exact ⟨span, ⟨closer, hcloser, Or.inr hspan⟩, rfl⟩
  have helses : (∃ span ∈ sink.leadingElse.toList ++ sink.closers.flatMap fun closer => closer.elseAfter.toList, span.1 = x) ↔
      x ∈ sink.leadingElse.toList.map Prod.fst ∨
        ∃ span ∈ sink.closers.flatMap fun closer => closer.elseAfter.toList, span.1 = x := by
    simp only [List.mem_append, or_and_right, exists_or, List.mem_map]
  rw [hclosers, helses, show (Prod.fst ∘ fun o : Open => (o.offset, o.offset + 1)) = Open.offset from rfl]
  simp only [or_assoc]
  exact or_congr_right or_left_comm

theorem detached_cases (group : Group) (arm : Arm) (sink : Sink) (bs : List Open) (ps : List Nat) (stop : Nat) :
    detached group arm sink bs ps stop = [(arm.directive.2, stop)] ∨
      sink.parenClosed = false ∧ ps.length ≤ sink.parenBase ∧
        detached group arm sink bs ps stop = looseEnds sink (bs.drop sink.braceBase) := by
  simp only [detached]
  split
  · exact Or.inl rfl
  · rename_i hkept
    simp only [Bool.or_eq_true, not_or, Bool.not_eq_true, decide_eq_false_iff_not, Nat.not_lt] at hkept
    exact Or.inr ⟨hkept.2.1, hkept.2.2, rfl⟩

/-- An arm that is not kept is blanked whole, or its parentheses are balanced and so is what is left of its braces. -/
theorem detached_balanced {n : Nat} {group : Group} {groups : List Group} {sink : Sink} {rest : List Sink} {arm : Arm}
    (hs : scanTokens src ((tokenize src).take n) = some s) (hgroups : s.groups = group :: groups) (hsinks : s.sinks = sink :: rest)
    (hlast : group.arms.getLast? = some arm) (hsandboxed : arm.sandboxed = true) (stop : Nat) :
    ∃ frame frames, view src ((tokenize src).take n) = frame :: frames ∧
      (detached group arm sink s.braces s.parens stop = [(arm.directive.2, stop)] ∨
        Balanced (sides (parens frame.seen)) ∧
          Balanced (sides (without ((detached group arm sink s.braces s.parens stop).map Prod.fst) (braces frame.seen)))) := by
  obtain ⟨s', hs', hagree⟩ := scan_accounts src n
  obtain rfl := Option.some.inj (hs.symm.trans hs')
  rw [hgroups, hsinks] at hagree
  obtain ⟨frame, frames, hview, hlive, hagrees⟩ := hagree.detached hlast hsandboxed
  refine ⟨frame, frames, hview, ?_⟩
  have hordered : Ordered frame.seen := by
    have htrail := trail_view src ((tokenize src).take n)
    rw [hview, trail] at htrail
    refine (ordered_tokenize src).sublist (.trans ?_ (htrail.trans (List.take_sublist n _)))
    exact List.sublist_append_right _ _
  rcases detached_cases group arm sink s.braces s.parens stop with hwhole | ⟨hclosed, hopen, hloose⟩
  · exact Or.inl hwhole
  refine Or.inr ⟨?_, ?_⟩
  · have hclosers : (unmatched (parens frame.seen)).closers = [] := by
      have h := hagrees.parenClosed
      rw [hclosed] at h
      simpa using h.symm
    have hopeners : (unmatched (parens frame.seen)).openers = [] := by
      rw [← hagrees.openParens, List.drop_eq_nil_of_le hopen]
      rfl
    have hcount := length_unmatched (parens frame.seen)
    rw [hclosers, hopeners] at hcount
    simp only [List.length_nil, Nat.cast_zero] at hcount
    constructor <;> omega
  · have hnodup : ((braces frame.seen).map Prod.snd).Nodup := hordered.nodup_starts.sublist (sublist_braces _)
    have hbalanced := balanced_without_unmatched (braces frame.seen) hnodup
    rw [← hagrees.closers, ← hagrees.openers] at hbalanced
    rw [hloose, without_congr]
    · exact hbalanced
    · rintro ⟨side, x⟩ hmem
      rw [mem_looseEnds, or_iff_right]
      -- no brace stands where a word stands
      rintro ⟨span, hspan, hx⟩
      obtain ⟨word, hword, hident, -, rfl⟩ := hagrees.elses span hspan
      obtain ⟨token, htoken, hbrace, hstart⟩ := mem_braces hmem
      obtain rfl := hordered.eq_of_start hword htoken (hx.trans hstart.symm)
      rw [isBrace, hident] at hbrace
      rcases hbrace with h | h <;> cases h

/-- The arm behind `#else` of the header, before its end. -/
def otherArm : Arm :=
  { directive := (14, 19), literal := none, braces := ⟨1, 0⟩, first := .other, sandboxed := true }

def splitGroup : Group :=
  { arms := [{ directive := (5, 10), literal := none, braces := ⟨1, 0⟩, first := .other, sandboxed := false }, otherArm]
    kept := some 0, inBody := true, blocks := 0, prevAtOpen := .boundary }

def otherSink : Sink := { braceBase := 2, parenBase := 0, position := .inside, prev := .boundary }

def splitScan : Scan :=
  { braces := [⟨3, .function, 0⟩, ⟨12, .other, 0⟩, ⟨23, .function, 0⟩], groups := [splitGroup]
    sinks := [otherSink, { braceBase := 0, parenBase := 0, position := .inside, prev := .boundary }] }

theorem detached_balanced_splitHeader : ∃ frame frames, view splitHeader ((tokenize splitHeader).take 12) = frame :: frames ∧
    (detached splitGroup otherArm otherSink splitScan.braces splitScan.parens 25 = [(otherArm.directive.2, 25)] ∨
      Balanced (sides (parens frame.seen)) ∧
        Balanced (sides (without
          ((detached splitGroup otherArm otherSink splitScan.braces splitScan.parens 25).map Prod.fst) (braces frame.seen)))) :=
  @detached_balanced splitHeader splitScan 12 splitGroup [] otherSink _ otherArm (by decide +kernel) rfl rfl rfl rfl 25

end Results

end PreprocArms
end Parser
end CodeSage
