import CodeSage.Lib.Brackets
import CodeSage.Parser.PreprocArms
import Mathlib.Data.List.ModifyLast

/-!
# CodeSage.Parser.PreprocViews

What the parser sees of each open arm once the groups inside it are reduced to the arms kept of them, without the stacks and
sinks of the scan, and that the scan accounts for exactly this: its depths and its brackets without a partner are those of the
tokens seen.
-/

namespace CodeSage
namespace Parser
namespace PreprocArms

open Lib Lib.Brackets

section Views

/-- An open group: what is seen of its current arm, and of the arm kept of it when that one has ended. -/
structure Frame where
  seen : List Token := []
  live : Bool
  kept : Option (List Token)
  taken : Bool

/-- The next arm of a group; the first one that is not a literal zero is kept. -/
def Frame.start (kept : Option (List Token)) (taken : Bool) (literal : Option Bool) : Frame :=
  let live := kept.isNone && !taken && literal != some false
  { live, kept, taken := if live then literal == some true else taken }

/-- What is seen of the group when its current arm ends. -/
def Frame.ended (frame : Frame) : Option (List Token) := if frame.live then some frame.seen else frame.kept

def addSeen (tokens : List Token) : List Frame → List Frame
  | [] => []
  | frame :: frames => { frame with seen := frame.seen ++ tokens } :: frames

def viewDirective : Directive → List Frame → List Frame
  | .if_ literal, frames => Frame.start none false literal :: frames
  | .else_ literal, frame :: frames => Frame.start frame.ended frame.taken literal :: frames
  | .endif, frame :: frames => addSeen (frame.ended.getD []) frames
  | _, [] => []

def textOf (src : Bytes) (token : Token) : Bytes := (src.drop token.start).take (token.stop - token.start)

def viewToken (src : Bytes) (frames : List Frame) (token : Token) : List Frame :=
  if token.kind = .directive then
    match directive (textOf src token) with
    | some d => viewDirective d frames
    | none => frames
  else addSeen [token] frames

/-- The open groups behind the tokens, the innermost first. -/
def view (src : Bytes) (tokens : List Token) : List Frame := tokens.foldl (viewToken src) []

def bracket (opening closing : UInt8) (token : Token) : Option (Side × Nat) :=
  if token.kind = .punct opening then some (.opening, token.start)
  else if token.kind = .punct closing then some (.closing, token.start)
  else none

def braces (seen : List Token) : List (Side × Nat) := seen.filterMap (bracket (byte '{') (byte '}'))

def parens (seen : List Token) : List (Side × Nat) := seen.filterMap (bracket (byte '(') (byte ')'))

def depth (brackets : List (Side × Nat)) : Depth := ⟨net (sides brackets), low (sides brackets)⟩

end Views

section Agreement

structure ArmAgrees (arm : Arm) (seen : List Token) : Prop where
  braces : arm.braces = depth (braces seen)
  parens : arm.parens = depth (parens seen)

def KeptAgrees (arms : List Arm) : Option Nat → Option (List Token) → Prop
  | none, none => True
  | some k, some seen => ∃ kept, arms[k]? = some kept ∧ ArmAgrees kept seen
  | _, _ => False

/-- The current arm is the last one. -/
def GroupAgrees (group : Group) (frame : Frame) : Prop :=
  ∃ arms arm, group.arms = arms ++ [arm] ∧ arm.sandboxed = !frame.live ∧ ArmAgrees arm frame.seen ∧ group.taken = frame.taken ∧
    if frame.live then frame.kept = none ∧ group.kept = some arms.length else KeptAgrees arms group.kept frame.kept

/-- The words `else` a sink has noted. -/
def Sink.elses (sink : Sink) : List Span := sink.leadingElse.toList ++ sink.closers.flatMap fun closer => closer.elseAfter.toList

def ElseWord (src : Bytes) (seen : List Token) (span : Span) : Prop :=
  ∃ token ∈ seen, token.kind = .ident ∧ textOf src token = ascii "else" ∧ span = (token.start, token.stop)

/-- A sink, with the braces and parentheses opened since it was made, has the brackets without a partner of what it saw. -/
structure SinkAgrees (src : Bytes) (sink : Sink) (opened : List Open) (openedParens : List Nat) (seen : List Token) : Prop where
  closers : sink.closers.map Closer.offset = (unmatched (braces seen)).closers
  openers : opened.map Open.offset = (unmatched (braces seen)).openers
  parenClosed : sink.parenClosed = !(unmatched (parens seen)).closers.isEmpty
  openParens : openedParens.map id = (unmatched (parens seen)).openers
  elses : ∀ span ∈ sink.elses, ElseWord src seen span

/-- The groups from the top on, with the sinks of the arms not kept. `later` is what the sink on top saw of the groups above. -/
def Agree (src : Bytes) : List Group → List Frame → List Sink → List Open → List Nat → List Token → Prop
  | [], [], _, _, _, _ => True
  | group :: groups, frame :: frames, sinks, bs, ps, later =>
    GroupAgrees group frame ∧
      if frame.live then Agree src groups frames sinks bs ps (frame.seen ++ later)
      else
        ∃ sink rest, sinks = sink :: rest ∧ sink.braceBase ≤ bs.length ∧ sink.parenBase ≤ ps.length ∧
          SinkAgrees src sink (bs.drop sink.braceBase) (ps.drop sink.parenBase) (frame.seen ++ later) ∧
          Agree src groups frames rest (bs.take sink.braceBase) (ps.take sink.parenBase) (frame.kept.getD [])
  | _, _, _, _, _, _ => False

variable {group : Group} {groups : List Group} {frame : Frame} {frames : List Frame} {sink sink' : Sink} {sinks rest : List Sink}
  {bs bs' : List Open} {ps ps' : List Nat} {later tokens seen : List Token} {src : Bytes}

theorem braces_append (a b : List Token) : braces (a ++ b) = braces a ++ braces b := List.filterMap_append

theorem parens_append (a b : List Token) : parens (a ++ b) = parens a ++ parens b := List.filterMap_append

theorem depth_append (a b : List (Side × Nat)) : depth (a ++ b) = (depth a).andThen (depth b) := by
  simp [depth, Depth.andThen, sides_append, net_append, low_append]

theorem depth_concat (a : List (Side × Nat)) (side : Side) (x : Nat) : depth (a ++ [(side, x)]) = (depth a).step side.delta := by
  rw [depth, sides_append, show sides [(side, x)] = [side] from rfl, net_concat, low_concat]
  rfl

/-- A stack keeps what is below the base, and has above it the openers without a partner when more brackets are seen. -/
structure Follows {β : Type} (label : β → Nat) (base : Nat) (stack stack' : List β) (more : List (Side × Nat)) : Prop where
  above : base ≤ stack'.length
  below : stack'.take base = stack.take base
  openers : ∀ old, (stack.drop base).map label = (unmatched old).openers → (stack'.drop base).map label = (unmatched (old ++ more)).openers

/-- What the sink on top and the open brackets become when more tokens are seen. -/
structure Sees (src : Bytes) (sink : Sink) (bs : List Open) (ps : List Nat) (sink' : Sink) (bs' : List Open) (ps' : List Nat) (tokens : List Token) :
    Prop where
  braceBase : sink'.braceBase = sink.braceBase
  parenBase : sink'.parenBase = sink.parenBase
  braces : sink.braceBase ≤ bs.length → Follows Open.offset sink.braceBase bs bs' (braces tokens)
  parens : sink.parenBase ≤ ps.length → Follows id sink.parenBase ps ps' (parens tokens)
  closers : ∀ seen, SinkAgrees src sink (bs.drop sink.braceBase) (ps.drop sink.parenBase) seen →
    sink'.closers.map Closer.offset = (unmatched (PreprocArms.braces (seen ++ tokens))).closers ∧
      sink'.parenClosed = !(unmatched (PreprocArms.parens (seen ++ tokens))).closers.isEmpty
  elses : ∀ span ∈ sink'.elses, span ∈ sink.elses ∨ ElseWord src tokens span

theorem ElseWord.mono {seen more : List Token} {span : Span} (h : ElseWord src seen span) (hsub : ∀ token ∈ seen, token ∈ more) :
    ElseWord src more span := by
  obtain ⟨token, hmem, hword⟩ := h
  exact ⟨token, hsub _ hmem, hword⟩

theorem Sees.agrees (h : Sees src sink bs ps sink' bs' ps' tokens) (hbase : sink.braceBase ≤ bs.length) (hparen : sink.parenBase ≤ ps.length)
    (hagrees : SinkAgrees src sink (bs.drop sink.braceBase) (ps.drop sink.parenBase) seen) :
    SinkAgrees src sink' (bs'.drop sink.braceBase) (ps'.drop sink.parenBase) (seen ++ tokens) where
  closers := (h.closers seen hagrees).1
  openers := by rw [braces_append]; exact (h.braces hbase).openers _ hagrees.openers
  parenClosed := (h.closers seen hagrees).2
  openParens := by rw [parens_append]; exact (h.parens hparen).openers _ hagrees.openParens
  elses := fun span hmem => (h.elses span hmem).elim
    (fun hold => (hagrees.elses span hold).mono fun _ => List.mem_append_left _) fun hnew => hnew.mono fun _ => List.mem_append_right _

/-- The sink on top is the one the groups from the top on account to. -/
theorem Agree.see (h : Agree src groups frames sinks bs ps later) (hsees : Sees src (sinks.headD root) bs ps sink' bs' ps' tokens) :
    Agree src groups frames (sink' :: sinks.tail) bs' ps' (later ++ tokens) := by
  induction groups generalizing frames later with
  | nil =>
    cases frames with
    | nil => trivial
    | cons frame frames => exact h
  | cons group groups ih =>
    cases frames with
    | nil => exact h
    | cons frame frames =>
      obtain ⟨hgroup, hrest⟩ := h
      refine ⟨hgroup, ?_⟩
      by_cases hlive : frame.live = true
      · rw [if_pos hlive] at hrest ⊢
        rw [← List.append_assoc]
        exact ih hrest
      · rw [if_neg hlive] at hrest ⊢
        obtain ⟨sink, rest, rfl, hbase, hparen, hagrees, hbelow⟩ := hrest
        rw [List.headD_cons] at hsees
        have hbraces := hsees.braces hbase
        have hparens := hsees.parens hparen
        refine ⟨sink', rest, rfl, ?_⟩
        rw [hsees.braceBase, hsees.parenBase, hbraces.below, hparens.below, ← List.append_assoc]
        exact ⟨hbraces.above, hparens.above, hsees.agrees hbase hparen hagrees, hbelow⟩

/-- A change to the current arm that goes with more tokens seen of it. -/
theorem GroupAgrees.see {f : Arm → Arm} (h : GroupAgrees group frame) (hsandboxed : ∀ arm : Arm, (f arm).sandboxed = arm.sandboxed)
    (hf : ∀ arm seen, ArmAgrees arm seen → ArmAgrees (f arm) (seen ++ tokens)) :
    GroupAgrees { group with arms := group.arms.modifyLast f } { frame with seen := frame.seen ++ tokens } := by
  obtain ⟨arms, arm, harms, hlive, hagrees, htaken, hkept⟩ := h
  refine ⟨arms, f arm, ?_, (hsandboxed arm).trans hlive, hf _ _ hagrees, htaken, hkept⟩
  simp only [harms]
  exact List.modifyLast_concat f arm arms

/-- The tokens that the groups above have left are seen of the current arm. -/
theorem Agree.absorb {f : Arm → Arm} (h : Agree src groups frames sinks bs ps tokens)
    (hsandboxed : ∀ arm : Arm, (f arm).sandboxed = arm.sandboxed)
    (hf : ∀ arm seen, ArmAgrees arm seen → ArmAgrees (f arm) (seen ++ tokens)) (s : Scan) (hs : s.groups = groups) :
    Agree src (s.onArm f).groups (addSeen tokens frames) sinks bs ps [] := by
  subst hs
  rw [Scan.onArm]
  cases hgroups : s.groups with
  | nil =>
    rw [hgroups] at h
    cases frames with
    | nil => simp [hgroups, addSeen, Agree]
    | cons frame frames => exact h.elim
  | cons group groups =>
    rw [hgroups] at h
    cases frames with
    | nil => exact h.elim
    | cons frame frames =>
      obtain ⟨hgroup, hrest⟩ := h
      refine ⟨hgroup.see hsandboxed hf, ?_⟩
      simpa only [List.append_nil] using hrest

end Agreement

section Tokens

variable {β : Type} {label : β → Nat} {base : Nat} {stack : List β} {sink sink' : Sink} {bs bs' : List Open} {ps ps' : List Nat} {src : Bytes}

theorem Follows.same (h : base ≤ stack.length) : Follows label base stack stack [] :=
  ⟨h, rfl, fun old hold => by rw [List.append_nil, hold]⟩

theorem unmatched_opening (old : List (Side × Nat)) (x : Nat) :
    unmatched (old ++ [(.opening, x)]) = ⟨(unmatched old).closers, (unmatched old).openers ++ [x]⟩ := unmatched_concat ..

theorem unmatched_closing (old : List (Side × Nat)) (x : Nat) : unmatched (old ++ [(.closing, x)]) =
    if (unmatched old).openers.isEmpty then ⟨(unmatched old).closers ++ [x], (unmatched old).openers⟩
    else ⟨(unmatched old).closers, (unmatched old).openers.dropLast⟩ := unmatched_concat ..

theorem Follows.push (h : base ≤ stack.length) (top : β) : Follows label base stack (stack ++ [top]) [(.opening, label top)] where
  above := by rw [List.length_append]; omega
  below := List.take_append_of_le_length h
  openers := fun old hold => by
    rw [List.drop_append_of_le_length h, List.map_append, hold, unmatched_opening, List.map_singleton]

/-- Above the base there is an opener to take exactly when the brackets seen have one without a partner. -/
theorem isEmpty_openers {old : List (Side × Nat)} (h : (stack.drop base).map label = (unmatched old).openers) :
    (unmatched old).openers.isEmpty = !decide (base < stack.length) := by
  rw [← h, Bool.eq_iff_iff, List.isEmpty_iff, ← List.length_eq_zero_iff, List.length_map, List.length_drop]
  simp only [Bool.not_eq_true', decide_eq_false_iff_not]
  omega

theorem Follows.pop (h : base < stack.length) (x : Nat) : Follows label base stack stack.dropLast [(.closing, x)] where
  above := by rw [List.length_dropLast]; omega
  below := by rw [List.dropLast_eq_take, List.take_take, Nat.min_eq_left (by omega)]
  openers := fun old hold => by
    have hsome := isEmpty_openers hold
    rw [decide_eq_true h] at hsome
    rw [unmatched_closing, hsome]
    rw [Bool.not_true, if_neg Bool.false_ne_true, ← hold, List.dropLast_eq_take, List.dropLast_eq_take, List.length_map, List.length_drop, List.drop_take,
      List.map_take]
    congr 1
    omega

theorem Follows.stray (h : base ≤ stack.length) (hnot : ¬base < stack.length) (x : Nat) :
    Follows label base stack stack [(.closing, x)] where
  above := h
  below := rfl
  openers := fun old hold => by
    have hnone := isEmpty_openers hold
    rw [decide_eq_false hnot] at hnone
    rw [unmatched_closing, hnone, hold]
    rfl

theorem bracket_punct (opening closing b : UInt8) (start stop : Nat) : bracket opening closing ⟨.punct b, start, stop⟩ =
    if b = opening then some (.opening, start) else if b = closing then some (.closing, start) else none := by
  simp only [bracket, Kind.punct.injEq]

variable (s : Scan)

@[simp] theorem Scan.sinks_onSink (f : Sink → Sink) : (s.onSink f).sinks = f s.sink :: s.sinks.tail := rfl
@[simp] theorem Scan.braces_onSink (f : Sink → Sink) : (s.onSink f).braces = s.braces := rfl
@[simp] theorem Scan.parens_onSink (f : Sink → Sink) : (s.onSink f).parens = s.parens := rfl
@[simp] theorem Scan.groups_onSink (f : Sink → Sink) : (s.onSink f).groups = s.groups := rfl

@[simp] theorem Scan.sinks_onArm (f : Arm → Arm) : (s.onArm f).sinks = s.sinks := by rw [onArm]; split <;> rfl
@[simp] theorem Scan.braces_onArm (f : Arm → Arm) : (s.onArm f).braces = s.braces := by rw [onArm]; split <;> rfl
@[simp] theorem Scan.parens_onArm (f : Arm → Arm) : (s.onArm f).parens = s.parens := by rw [onArm]; split <;> rfl
@[simp] theorem Scan.sink_onArm (f : Arm → Arm) : (s.onArm f).sink = s.sink := by rw [sink, sinks_onArm]; rfl

theorem braces_single (token : Token) : braces [token] = (bracket (byte '{') (byte '}') token).toList := by
  rw [braces, List.filterMap_cons]
  cases bracket (byte '{') (byte '}') token <;> rfl

theorem parens_single (token : Token) : parens [token] = (bracket (byte '(') (byte ')') token).toList := by
  rw [parens, List.filterMap_cons]
  cases bracket (byte '(') (byte ')') token <;> rfl

/-- A token that is no bracket. -/
theorem Sees.other {token : Token} (hbase : sink'.braceBase = sink.braceBase) (hparen : sink'.parenBase = sink.parenBase)
    (hclosers : sink'.closers.map Closer.offset = sink.closers.map Closer.offset) (hclosed : sink'.parenClosed = sink.parenClosed)
    (helses : ∀ span ∈ sink'.elses, span ∈ sink.elses ∨ ElseWord src [token] span)
    (hb : bracket (byte '{') (byte '}') token = none) (hp : bracket (byte '(') (byte ')') token = none) :
    Sees src sink bs ps sink' bs ps [token] where
  braceBase := hbase
  parenBase := hparen
  braces := fun h => by rw [braces_single, hb]; exact .same h
  parens := fun h => by rw [parens_single, hp]; exact .same h
  closers := fun seen h => by
    rw [braces_append, parens_append, braces_single, parens_single, hb, hp, Option.toList_none, List.append_nil, List.append_nil, hclosers,
      hclosed]
    exact ⟨h.closers, h.parenClosed⟩
  elses := helses

/-- A brace. -/
theorem Sees.brace {token : Token} {side : Side} {x : Nat} (hbase : sink'.braceBase = sink.braceBase)
    (hparen : sink'.parenBase = sink.parenBase) (hclosed : sink'.parenClosed = sink.parenClosed)
    (helses : sink'.elses = sink.elses) (hb : bracket (byte '{') (byte '}') token = some (side, x)) (hp : bracket (byte '(') (byte ')') token = none)
    (hfollows : sink.braceBase ≤ bs.length → Follows Open.offset sink.braceBase bs bs' [(side, x)])
    (hclosers : ∀ old, (bs.drop sink.braceBase).map Open.offset = (unmatched old).openers →
      sink.closers.map Closer.offset = (unmatched old).closers →
      sink'.closers.map Closer.offset = (unmatched (old ++ [(side, x)])).closers) : Sees src sink bs ps sink' bs' ps [token] where
  braceBase := hbase
  parenBase := hparen
  braces := fun h => by rw [braces_single, hb]; exact hfollows h
  parens := fun h => by rw [parens_single, hp]; exact .same h
  closers := fun seen h => by
    rw [braces_append, parens_append, braces_single, parens_single, hb, hp, Option.toList_none, List.append_nil, hclosed]
    exact ⟨hclosers _ h.openers h.closers, h.parenClosed⟩
  elses := fun span hmem => Or.inl (helses ▸ hmem)

/-- A parenthesis. -/
theorem Sees.paren {token : Token} {side : Side} {x : Nat} (hbase : sink'.braceBase = sink.braceBase)
    (hparen : sink'.parenBase = sink.parenBase) (hclosers : sink'.closers = sink.closers)
    (helses : sink'.elses = sink.elses) (hb : bracket (byte '{') (byte '}') token = none) (hp : bracket (byte '(') (byte ')') token = some (side, x))
    (hfollows : sink.parenBase ≤ ps.length → Follows id sink.parenBase ps ps' [(side, x)])
    (hclosed : ∀ old, (ps.drop sink.parenBase).map id = (unmatched old).openers → sink.parenClosed = !(unmatched old).closers.isEmpty →
      sink'.parenClosed = !(unmatched (old ++ [(side, x)])).closers.isEmpty) : Sees src sink bs ps sink' bs ps' [token] where
  braceBase := hbase
  parenBase := hparen
  braces := fun h => by rw [braces_single, hb]; exact .same h
  parens := fun h => by rw [parens_single, hp]; exact hfollows h
  closers := fun seen h => by
    rw [braces_append, parens_append, braces_single, parens_single, hb, hp, Option.toList_none, List.append_nil, hclosers]
    exact ⟨h.closers, hclosed _ h.openParens h.parenClosed⟩
  elses := fun span hmem => Or.inl (helses ▸ hmem)

theorem map_offset_word (start stop : Nat) (text : Bytes) (sink : Sink) :
    (sink.word start stop text).closers.map Closer.offset = sink.closers.map Closer.offset := by
  rw [Sink.word]
  split
  · split
    · rfl
    · rcases List.eq_nil_or_concat sink.closers with hnil | ⟨closers, last, hlast⟩
      · rw [hnil]
        rfl
      · simp [hlast, List.concat_eq_append, List.modifyLast_concat]
    · rfl
  · rfl

/-- A word `else` is noted, no other one is. -/
theorem elses_word (start stop : Nat) (text : Bytes) (sink : Sink) :
    ∀ span ∈ (sink.word start stop text).elses, span ∈ sink.elses ∨ (text = ascii "else" ∧ span = (start, stop)) := by
  intro span hmem
  rw [Sink.word] at hmem
  split at hmem
  · rename_i htext
    split at hmem
    · simp only [Sink.elses, Option.toList_some, List.mem_append, List.mem_singleton] at hmem ⊢
      rcases hmem with rfl | hmem
      · exact Or.inr ⟨htext, rfl⟩
      · exact Or.inl (Or.inr hmem)
    · rcases List.eq_nil_or_concat sink.closers with hnil | ⟨closers, last, hlast⟩
      · left
        rw [Sink.elses, hnil] at hmem ⊢
        exact hmem
      · simp only [Sink.elses, hlast, List.concat_eq_append, List.modifyLast_concat, List.flatMap_append, List.flatMap_singleton,
          Option.toList_some, List.mem_append, List.mem_singleton] at hmem ⊢
        rcases hmem with hmem | hmem | rfl
        · exact Or.inl (Or.inl hmem)
        · exact Or.inl (Or.inr (Or.inl hmem))
        · exact Or.inr ⟨htext, rfl⟩
    · exact Or.inl hmem
  · exact Or.inl hmem

theorem sees_word {token : Token} (hkind : token.kind = .ident) :
    Sees src sink bs ps (sink.word token.start token.stop (textOf src token)) bs ps [token] := by
  refine .other ?_ ?_ (map_offset_word _ _ _ sink) ?_ ?_ (by simp [bracket, hkind]) (by simp [bracket, hkind])
  case refine_4 =>
    intro span hmem
    refine (elses_word _ _ _ sink span hmem).imp_right ?_
    rintro ⟨htext, rfl⟩
    exact ⟨token, List.mem_singleton_self _, hkind, htext, rfl⟩
  all_goals
    rw [Sink.word]
    split
    · split <;> rfl
    · rfl

/-- Every token that is no directive is accounted for by the sink on top. -/
theorem sees_token {s : Scan} {token : Token} (hkind : token.kind ≠ .directive) :
    ∃ sink', (s.token token.kind token.start token.stop (textOf src token)).sinks = sink' :: s.sinks.tail ∧
      Sees src s.sink s.braces s.parens sink' (s.token token.kind token.start token.stop (textOf src token)).braces
        (s.token token.kind token.start token.stop (textOf src token)).parens [token] := by
  obtain ⟨kind, start, stop⟩ := token
  dsimp only at hkind ⊢
  cases kind with
  | directive => exact absurd rfl hkind
  | ident =>
    refine ⟨s.sink.word start stop (textOf src ⟨.ident, start, stop⟩), by simp [Scan.token], ?_⟩
    simpa [Scan.token] using @sees_word _ _ _ src ⟨.ident, start, stop⟩ rfl
  | str | scope | other =>
    refine ⟨_, by simp only [Scan.token, Scan.sinks_onSink, Scan.sinks_onArm]; rfl, ?_⟩
    simp only [Scan.token, Scan.braces_onSink, Scan.braces_onArm, Scan.parens_onSink, Scan.parens_onArm, Scan.sink_onArm]
    exact .other rfl rfl rfl rfl (fun _ hmem => Or.inl hmem) rfl rfl
  | punct b =>
    have hb := bracket_punct (byte '{') (byte '}') b start stop
    have hp := bracket_punct (byte '(') (byte ')') b start stop
    simp only [Scan.token]
    split
    · rename_i h
      subst h
      refine ⟨{ s.sink with position := .inside, prev := .boundary }, by simp [Scan.openBrace, Scan.sink], ?_⟩
      simp only [Scan.openBrace, Scan.braces_onSink, Scan.braces_onArm, Scan.parens_onSink, Scan.parens_onArm, Scan.sink_onArm]
      refine .brace rfl rfl rfl rfl hb hp (fun hbase => .push hbase _) fun old hopen hclosers => ?_
      rw [unmatched_opening]
      exact hclosers
    split
    · rename_i h
      subst h
      simp only [Scan.closeBrace, Scan.braces_onArm, Scan.parens_onArm, Scan.sink_onArm]
      split
      · rename_i hopen
        refine ⟨{ s.sink with position := .inside, prev := .boundary }, by simp [Scan.sink], ?_⟩
        simp only [Scan.braces_onSink, Scan.parens_onSink]
        refine .brace rfl rfl rfl rfl hb hp (fun _ => .pop hopen _) fun old holds hclosers => ?_
        have hsome := isEmpty_openers holds
        rw [decide_eq_true hopen] at hsome
        rw [unmatched_closing, hsome]
        exact hclosers
      · rename_i hnot
        refine ⟨_, by simp only [Scan.sinks_onSink, Scan.sinks_onArm]; rfl, ?_⟩
        simp only [Scan.braces_onSink, Scan.braces_onArm, Scan.parens_onSink, Scan.parens_onArm, Scan.sink_onArm]
        refine .brace rfl rfl rfl (by simp [Sink.elses]) hb hp (fun hbase => .stray hbase hnot _) fun old holds hclosers => ?_
        have hnone := isEmpty_openers holds
        rw [decide_eq_false hnot] at hnone
        rw [unmatched_closing, hnone, List.map_append, hclosers]
        rfl
    split
    · rename_i h
      subst h
      refine ⟨{ s.sink with position := .inside, prev := .other }, by simp [Scan.openParen, Scan.sink], ?_⟩
      simp only [Scan.openParen, Scan.braces_onSink, Scan.braces_onArm, Scan.parens_onSink, Scan.parens_onArm]
      refine .paren rfl rfl rfl rfl hb hp (fun hbase => .push hbase start) fun old holds hclosed => ?_
      rw [unmatched_opening]
      exact hclosed
    split
    · rename_i h
      subst h
      simp only [Scan.closeParen, Scan.braces_onArm, Scan.parens_onArm, Scan.sink_onArm]
      split
      · rename_i hopen
        refine ⟨{ s.sink with position := .inside, prev := .bodyHead }, by simp [Scan.sink], ?_⟩
        simp only [Scan.braces_onSink, Scan.parens_onSink]
        refine .paren rfl rfl rfl rfl hb hp (fun _ => .pop hopen _) fun old holds hclosed => ?_
        have hsome := isEmpty_openers holds
        rw [decide_eq_true hopen] at hsome
        rw [unmatched_closing, hsome]
        exact hclosed
      · rename_i hnot
        refine ⟨_, by simp only [Scan.sinks_onSink, Scan.sinks_onArm]; rfl, ?_⟩
        simp only [Scan.braces_onSink, Scan.braces_onArm, Scan.parens_onSink, Scan.parens_onArm, Scan.sink_onArm]
        refine .paren rfl rfl rfl rfl hb hp (fun hbase => .stray hbase hnot _) fun old holds _ => ?_
        have hnone := isEmpty_openers holds
        rw [decide_eq_false hnot] at hnone
        rw [unmatched_closing, hnone]
        simp
    · rename_i hopen hclose hparen hclosed
      refine ⟨_, by simp only [Scan.sinks_onSink, Scan.sinks_onArm]; rfl, ?_⟩
      simp only [Scan.braces_onSink, Scan.braces_onArm, Scan.parens_onSink, Scan.parens_onArm, Scan.sink_onArm]
      refine .other rfl rfl rfl rfl (fun _ hmem => Or.inl hmem) ?_ ?_
      · rw [hb, if_neg hopen, if_neg hclose]
      · rw [hp, if_neg hparen, if_neg hclosed]

theorem groups_token (kind : Kind) (start stop : Nat) (text : Bytes) :
    (s.token kind start stop text).groups = (s.onArm (·.see kind text)).groups := by
  cases kind with
  | punct b =>
    simp only [Scan.token]
    split
    · rfl
    split
    · rw [Scan.closeBrace]
      split <;> rfl
    split
    · rfl
    split
    · rw [Scan.closeParen]
      split <;> rfl
    · rfl
  | _ => rfl

theorem sandboxed_see (arm : Arm) (kind : Kind) (text : Bytes) : (arm.see kind text).sandboxed = arm.sandboxed := by
  simp only [Arm.see]
  split_ifs <;> rfl

theorem braces_see (arm : Arm) (kind : Kind) (text : Bytes) : (arm.see kind text).braces =
    if kind = .punct (byte '{') then arm.braces.step 1 else if kind = .punct (byte '}') then arm.braces.step (-1) else arm.braces := by
  simp only [Arm.see]
  split_ifs <;> rfl

theorem parens_see (arm : Arm) (kind : Kind) (text : Bytes) : (arm.see kind text).parens =
    if kind = .punct (byte '(') then arm.parens.step 1 else if kind = .punct (byte ')') then arm.parens.step (-1) else arm.parens := by
  have hopening : ∀ b : UInt8, b ≠ byte '(' → Kind.punct b ≠ .punct (byte '(') := fun b hb h => hb (Kind.punct.inj h)
  have hclosing : ∀ b : UInt8, b ≠ byte ')' → Kind.punct b ≠ .punct (byte ')') := fun b hb h => hb (Kind.punct.inj h)
  simp only [Arm.see]
  by_cases hopen : kind = .punct (byte '{')
  · rw [if_pos hopen, hopen, if_neg (hopening _ (by decide)), if_neg (hclosing _ (by decide))]
    split_ifs <;> rfl
  · by_cases hclose : kind = .punct (byte '}')
    · rw [if_neg hopen, if_pos hclose, hclose, if_neg (hopening _ (by decide)), if_neg (hclosing _ (by decide))]
      split_ifs <;> rfl
    · rw [if_neg hopen, if_neg hclose]
      split_ifs <;> rfl

/-- An arm counts the brackets of the tokens seen of it. -/
theorem ArmAgrees.see {arm : Arm} {seen : List Token} (h : ArmAgrees arm seen) (token : Token) (text : Bytes) :
    ArmAgrees (arm.see token.kind text) (seen ++ [token]) := by
  constructor
  · rw [braces_see, h.braces, braces_append, braces_single, bracket]
    split_ifs
    · rw [Option.toList_some, depth_concat]
      rfl
    · rw [Option.toList_some, depth_concat]
      rfl
    · rw [Option.toList_none, List.append_nil]
  · rw [parens_see, h.parens, parens_append, parens_single, bracket]
    split_ifs
    · rw [Option.toList_some, depth_concat]
      rfl
    · rw [Option.toList_some, depth_concat]
      rfl
    · rw [Option.toList_none, List.append_nil]

end Tokens

section Steps

variable {s : Scan} {group : Group} {groups : List Group} {frame : Frame} {frames : List Frame} {kept : Option (List Token)} {src : Bytes}

theorem agree_token {token : Token} (h : Agree src s.groups frames s.sinks s.braces s.parens [])
    (hkind : token.kind ≠ .directive) :
    Agree src (s.token token.kind token.start token.stop (textOf src token)).groups (viewToken src frames token)
      (s.token token.kind token.start token.stop (textOf src token)).sinks (s.token token.kind token.start token.stop (textOf src token)).braces
      (s.token token.kind token.start token.stop (textOf src token)).parens [] := by
  obtain ⟨sink', hsinks, hsees⟩ := sees_token hkind
  rw [viewToken, if_neg hkind, groups_token, hsinks]
  have hseen := h.see hsees
  rw [List.nil_append] at hseen
  exact hseen.absorb (fun arm => sandboxed_see arm token.kind _) (fun arm seen hagrees => hagrees.see token _) s rfl

theorem KeptAgrees.isNone {arms : List Arm} {k : Option Nat} (h : KeptAgrees arms k kept) : k.isNone = kept.isNone := by
  cases k <;> cases kept <;> first | rfl | exact h.elim

theorem KeptAgrees.concat {arms : List Arm} {k : Option Nat} (h : KeptAgrees arms k kept) (arm : Arm) :
    KeptAgrees (arms ++ [arm]) k kept := by
  cases k with
  | none => cases kept with
    | none => trivial
    | some seen => exact h
  | some k => cases kept with
    | none => exact h
    | some seen =>
      obtain ⟨keptArm, hget, hagrees⟩ := h
      have hlt := (List.getElem?_eq_some_iff.mp hget).1
      exact ⟨keptArm, by rw [List.getElem?_append_left hlt, hget], hagrees⟩

theorem armAgrees_new (span : Span) (literal : Option Bool) (sandboxed : Bool) :
    ArmAgrees { directive := span, literal, sandboxed } [] := ⟨rfl, rfl⟩

theorem agree_startArm (hs : s.groups = group :: groups) (hkept : KeptAgrees group.arms group.kept kept)
    (hrest : Agree src groups frames s.sinks s.braces s.parens (kept.getD [])) (span : Span) (literal : Option Bool) :
    ∃ s', s.startArm span literal = some s' ∧
      Agree src s'.groups (Frame.start kept group.taken literal :: frames) s'.sinks s'.braces s'.parens [] := by
  rw [Scan.startArm, hs]
  refine ⟨_, rfl, ?_⟩
  have hnone := hkept.isNone
  simp only [Frame.start, Agree, ← hnone]
  cases hlive : (group.kept.isNone && !group.taken && literal != some false) with
  | true =>
    simp only [Bool.and_eq_true] at hlive
    obtain rfl : kept = none := Option.isNone_iff_eq_none.mp (hnone ▸ hlive.1.1)
    refine ⟨⟨group.arms, _, rfl, rfl, armAgrees_new .., rfl, ?_⟩, ?_⟩
    · simp
    · simpa using hrest
  | false =>
    refine ⟨⟨group.arms, _, rfl, rfl, armAgrees_new .., rfl, ?_⟩, ?_⟩
    · simpa using hkept
    · rw [if_neg Bool.false_ne_true]
      refine ⟨_, s.sinks, rfl, Nat.le_refl _, Nat.le_refl _, ?_, ?_⟩
      · simp only [List.drop_length, List.append_nil]
        exact ⟨rfl, rfl, rfl, rfl, by simp [Sink.elses]⟩
      · simpa using hrest

theorem agree_endArm (hs : s.groups = group :: groups) (h : Agree src s.groups (frame :: frames) s.sinks s.braces s.parens []) (stop : Nat) :
    ∃ s' group', s.endArm stop = some s' ∧ s'.groups = group' :: groups ∧ group'.taken = frame.taken ∧
      KeptAgrees group'.arms group'.kept frame.ended ∧ Agree src groups frames s'.sinks s'.braces s'.parens (frame.ended.getD []) := by
  rw [hs] at h
  obtain ⟨⟨arms, arm, harms, hsandboxed, hagrees, htaken, hkept⟩, hrest⟩ := h
  have hlast : group.arms.getLast? = some arm := by rw [harms, List.getLast?_concat]
  rw [Scan.endArm, hs]
  simp only [hlast, Option.bind_some, hsandboxed, Frame.ended]
  cases hlive : frame.live with
  | true =>
    rw [hlive, if_pos rfl] at hkept hrest
    refine ⟨s, group, rfl, hs, htaken, ?_, by simpa using hrest⟩
    rw [if_pos rfl, hkept.2, harms]
    exact ⟨arm, List.getElem?_concat_length, hagrees⟩
  | false =>
    rw [hlive, if_neg Bool.false_ne_true] at hkept hrest
    obtain ⟨sink, rest, hsinks, hbase, -, -, hbelow⟩ := hrest
    rw [hsinks]
    refine ⟨_, _, if_pos hbase, rfl, htaken, ?_, hbelow⟩
    rw [harms]
    exact hkept.concat arm

theorem Sees.isOpaque (sink : Sink) (bs : List Open) (ps : List Nat) :
    Sees src sink bs ps { sink with isOpaque := true } bs ps [] where
  braceBase := rfl
  parenBase := rfl
  braces := Follows.same
  parens := Follows.same
  closers := fun seen h => by rw [List.append_nil]; exact ⟨h.closers, h.parenClosed⟩
  elses := fun _ hmem => Or.inl hmem

theorem addSeen_nil (frames : List Frame) : addSeen [] frames = frames := by
  cases frames with
  | nil => rfl
  | cons frame frames => rw [addSeen, List.append_nil]

theorem ArmAgrees.take {parent keptArm : Arm} {seen more : List Token} (h : ArmAgrees parent seen) (hkept : ArmAgrees keptArm more) :
    ArmAgrees (parent.take keptArm) (seen ++ more) where
  braces := by rw [braces_append, depth_append, ← h.braces, ← hkept.braces]; rfl
  parens := by rw [parens_append, depth_append, ← h.parens, ← hkept.parens]; rfl

theorem agree_resolve (hs : s.groups = group :: groups) (hkept : KeptAgrees group.arms group.kept kept)
    (hrest : Agree src groups frames s.sinks s.braces s.parens (kept.getD [])) (endif : Span) :
    ∃ s', s.resolve endif = some s' ∧ Agree src s'.groups (addSeen (kept.getD []) frames) s'.sinks s'.braces s'.parens [] := by
  rw [Scan.resolve, hs]
  dsimp only
  cases hk : group.kept with
  | none =>
    rw [hk] at hkept
    obtain rfl : kept = none := Option.isNone_iff_eq_none.mp hkept.isNone.symm
    refine ⟨_, rfl, ?_⟩
    rw [Option.getD_none, addSeen_nil]
    exact hrest
  | some k =>
    rw [hk] at hkept
    cases kept with
    | none => exact hkept.elim
    | some seen =>
      obtain ⟨keptArm, hget, hagrees⟩ := hkept
      have hne : group.arms ≠ [] := by
        rintro hnil
        rw [hnil] at hget
        cases hget
      obtain ⟨first, arms, harms⟩ := List.exists_cons_of_ne_nil hne
      have hfirst : group.arms.head? = some first := by rw [harms, List.head?_cons]
      simp only [hfirst, hget, Option.bind_some, Option.getD_some]
      rw [Option.getD_some] at hrest
      have hsandboxed : ∀ arm : Arm, (arm.take keptArm).sandboxed = arm.sandboxed := fun arm => rfl
      refine ⟨_, rfl, ?_⟩
      simp only [Scan.sinks_onArm, Scan.braces_onArm, Scan.parens_onArm]
      split
      · exact hrest.absorb hsandboxed (fun arm seen h => h.take hagrees) _ rfl
      · split
        · exact hrest.absorb hsandboxed (fun arm seen h => h.take hagrees) _ rfl
        · have hseen := hrest.see (.isOpaque _ _ _)
          rw [List.append_nil] at hseen
          exact hseen.absorb hsandboxed (fun arm seen h => h.take hagrees) _ rfl

theorem Agree.frames_nil (h : Agree src s.groups frames s.sinks s.braces s.parens []) (hs : s.groups = []) : frames = [] := by
  rw [hs] at h
  cases frames with
  | nil => rfl
  | cons frame frames => exact h.elim

theorem Agree.frames_cons (h : Agree src s.groups frames s.sinks s.braces s.parens []) (hs : s.groups = group :: groups) :
    ∃ frame more, frames = frame :: more := by
  rw [hs] at h
  cases frames with
  | nil => exact h.elim
  | cons frame frames => exact ⟨frame, frames, rfl⟩

theorem agree_directive (h : Agree src s.groups frames s.sinks s.braces s.parens []) (start stop : Nat) (text : Bytes) :
    ∃ s', s.directive start stop text = some s' ∧
      Agree src s'.groups ((directive text).elim frames (viewDirective · frames)) s'.sinks s'.braces s'.parens [] := by
  rw [Scan.directive]
  cases directive text with
  | none => exact ⟨s, rfl, h⟩
  | some d =>
    rw [Option.elim_some]
    cases d with
    | if_ literal =>
      have hsees : Sees src s.sink s.braces s.parens s.sink s.braces s.parens [] :=
        ⟨rfl, rfl, Follows.same, Follows.same, fun seen h => by rw [List.append_nil]; exact ⟨h.closers, h.parenClosed⟩,
          fun _ hmem => Or.inl hmem⟩
      have hkept : KeptAgrees [] none none := trivial
      refine agree_startArm (s := { (s.onSink id) with groups := _ :: s.groups }) rfl hkept ?_ (start, stop) literal
      exact h.see hsees
    | else_ literal =>
      cases hs : s.groups with
      | nil =>
        obtain rfl := h.frames_nil hs
        exact ⟨s, rfl, h⟩
      | cons group groups =>
        obtain ⟨frame, frames, rfl⟩ := h.frames_cons hs
        obtain ⟨s', group', hend, hs', htaken, hkept, hrest⟩ := agree_endArm hs h start
        have hstart := agree_startArm hs' hkept hrest (start, stop) literal
        rw [htaken] at hstart
        simpa only [List.isEmpty_cons, Bool.false_eq_true, if_false, hend, Option.bind_some, viewDirective] using hstart
    | endif =>
      cases hs : s.groups with
      | nil =>
        obtain rfl := h.frames_nil hs
        exact ⟨s, rfl, h⟩
      | cons group groups =>
        obtain ⟨frame, frames, rfl⟩ := h.frames_cons hs
        obtain ⟨s', group', hend, hs', -, hkept, hrest⟩ := agree_endArm hs h start
        have hresolve := agree_resolve hs' hkept hrest (start, stop)
        simpa only [List.isEmpty_cons, Bool.false_eq_true, if_false, hend, Option.bind_some, viewDirective] using hresolve

theorem agree_scanToken {token : Token} (h : Agree src s.groups frames s.sinks s.braces s.parens [])
    (hstart : token.start ≤ token.stop) (hstop : token.stop ≤ src.length) :
    ∃ s', scanToken src s token = some s' ∧ Agree src s'.groups (viewToken src frames token) s'.sinks s'.braces s'.parens [] := by
  have hslice : slice src (token.start, token.stop) = some (textOf src token) := if_pos ⟨hstart, hstop⟩
  rw [scanToken, hslice, Option.bind_some]
  split
  · rename_i hkind
    obtain ⟨s', hs', hagree⟩ := agree_directive h token.start token.stop (textOf src token)
    refine ⟨s', hs', ?_⟩
    rw [viewToken, if_pos hkind]
    cases hd : directive (textOf src token) with
    | none => rwa [hd] at hagree
    | some d => rwa [hd] at hagree
  · rename_i hkind
    exact ⟨_, rfl, agree_token h hkind⟩

/-- The scan goes through, and accounts for what is seen. -/
theorem agree_scanTokens {tokens : List Token} (h : ∀ token ∈ tokens, token.start ≤ token.stop ∧ token.stop ≤ src.length) :
    ∃ s, scanTokens src tokens = some s ∧ Agree src s.groups (view src tokens) s.sinks s.braces s.parens [] := by
  induction tokens using List.reverseRecOn with
  | nil => exact ⟨{}, rfl, trivial⟩
  | append_singleton tokens token ih =>
    obtain ⟨s, hs, hagree⟩ := ih fun token hmem => h token (List.mem_append_left _ hmem)
    obtain ⟨hstart, hstop⟩ := h token (by simp)
    obtain ⟨s', hs', hagree'⟩ := agree_scanToken hagree hstart hstop
    refine ⟨s', ?_, ?_⟩
    · rw [scanTokens] at hs ⊢
      rw [List.foldlM_append, hs]
      simpa using hs'
    · rw [view, List.foldl_append]
      exact hagree'

end Steps

end PreprocArms
end Parser
end CodeSage
