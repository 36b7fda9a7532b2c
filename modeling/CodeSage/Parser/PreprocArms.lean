import CodeSage.Parser.Lexer
import Mathlib.Data.List.DropRight

/-!
# CodeSage.Parser.PreprocArms

The pass that reduces a conditional group whose arms each hold part of one statement (`crates/parser/src/preproc_arms.rs`).

A value is `none` where the code would panic: an `expect` on an empty stack, an index or a slice out of bounds. The stacks of
sinks and of groups have their top in front; the stacks of braces and of parentheses have it at the end, as in the source.
-/

namespace CodeSage
namespace Parser
namespace PreprocArms

section Directives

def ascii (word : String) : Bytes := word.toList.map byte

/-- `trim_start` -/
def trimStart (text : Bytes) : Bytes := text.dropWhile isWhitespace

/-- `trim` -/
def trim (text : Bytes) : Bytes := (trimStart text).rdropWhile isWhitespace

def isWord (b : UInt8) : Bool := isAlphanumeric b || b == byte '_'

/-- The word behind `#`, and what stands behind it. -/
def nameAndRest : Bytes → Option (Bytes × Bytes)
  | [] => none
  | b :: rest => if b = byte '#' then some ((trimStart rest).takeWhile isWord, (trimStart rest).dropWhile isWord) else none

/-- `keyword` -/
def keyword (text : Bytes) : Bytes := ((nameAndRest text).map Prod.fst).getD []

def beforeComment : Bytes → Bytes
  | [] => []
  | b :: rest =>
    if startsWith ['/', '*'] (b :: rest) || startsWith ['/', '/'] (b :: rest) then [] else b :: beforeComment rest

/-- The text inside its parentheses; each pair takes two bytes. -/
def unwrap : Nat → Bytes → Bytes
  | 0, text => text
  | fuel + 1, text =>
    match text with
    | b :: rest => if b = byte '(' ∧ rest.getLast? = some (byte ')') then unwrap fuel (trim rest.dropLast) else text
    | [] => text

/-- `literal` -/
def literal (condition : Bytes) : Option Bool :=
  let text := trim (beforeComment condition)
  let text := unwrap text.length text
  if text = ascii "0" then some false else if text = ascii "1" then some true else none

/-- `Directive` -/
inductive Directive where
  | if_ (literal : Option Bool)
  | else_ (literal : Option Bool)
  | endif
  deriving DecidableEq, Repr

/-- `directive` -/
def directive (text : Bytes) : Option Directive :=
  (nameAndRest text).bind fun (keyword, condition) =>
    if keyword = ascii "if" then some (.if_ (literal condition))
    else if keyword = ascii "ifdef" ∨ keyword = ascii "ifndef" then some (.if_ none)
    else if keyword = ascii "elif" then some (.else_ (literal condition))
    else if keyword = ascii "elifdef" ∨ keyword = ascii "elifndef" ∨ keyword = ascii "else" then some (.else_ none)
    else if keyword = ascii "endif" then some .endif
    else none

/-- `has_conditional_directive` -/
def hasConditionalDirective : Bool → Bytes → Bool
  | _, [] => false
  | lineStart, b :: rest =>
    if b = byte '\n' then hasConditionalDirective true rest
    else if lineStart && b == byte '#' then
      startsWith ['i', 'f'] (rest.dropWhile fun c => c == byte ' ' || c == byte '\t') || hasConditionalDirective false rest
    else if [byte ' ', byte '\t', byte '\r'].contains b then hasConditionalDirective lineStart rest
    else hasConditionalDirective false rest

end Directives

section States

/-- `Depth` -/
structure Depth where
  net : Int := 0
  low : Int := 0
  deriving DecidableEq, Repr

/-- `Depth::step` -/
def Depth.step (d : Depth) (delta : Int) : Depth := ⟨d.net + delta, min d.low (d.net + delta)⟩

/-- `Depth::then` -/
def Depth.andThen (d next : Depth) : Depth := ⟨d.net + next.net, min d.low (d.net + next.low)⟩

/-- `Depth::balanced` -/
def Depth.balanced (d : Depth) : Bool := d.net == 0 && d.low == 0

/-- `First` -/
inductive First where
  | unseen
  | elseWord
  | other
  deriving DecidableEq, Repr

/-- `BraceKind` -/
inductive BraceKind where
  | function
  | block
  | other
  deriving DecidableEq, Repr

/-- `Open` -/
structure Open where
  offset : Nat
  kind : BraceKind
  blocks : Int
  deriving DecidableEq, Repr

/-- `Prev` -/
inductive Prev where
  | boundary
  | bodyHead
  | other
  deriving DecidableEq, Repr

/-- `Position` -/
inductive Position where
  | start
  | afterCloser
  | inside
  deriving DecidableEq, Repr

abbrev Span := Nat × Nat

/-- `Closer` -/
structure Closer where
  offset : Nat
  elseAfter : Option Span := none
  deriving DecidableEq, Repr

/-- `Sink` -/
structure Sink where
  braceBase : Nat
  parenBase : Nat
  closers : List Closer := []
  parenClosed : Bool := false
  leadingElse : Option Span := none
  position : Position := .start
  prev : Prev
  isOpaque : Bool := false
  deriving DecidableEq, Repr

/-- The sink of the file itself. -/
def root : Sink := { braceBase := 0, parenBase := 0, prev := .boundary }

/-- `Arm` -/
structure Arm where
  directive : Span
  literal : Option Bool
  braces : Depth := {}
  parens : Depth := {}
  first : First := .unseen
  sandboxed : Bool
  deriving DecidableEq, Repr

/-- `Arm::whole` -/
def Arm.whole (arm : Arm) : Bool := arm.braces.balanced && arm.parens.balanced && arm.first != .elseWord

/-- `Group` -/
structure Group where
  arms : List Arm := []
  kept : Option Nat := none
  taken : Bool := false
  inBody : Bool
  blocks : Int
  prevAtOpen : Prev
  pending : List Span := []
  deriving DecidableEq, Repr

/-- `Scan` -/
structure Scan where
  braces : List Open := []
  parens : List Nat := []
  sinks : List Sink := []
  groups : List Group := []
  blanks : List Span := []
  deriving DecidableEq, Repr

end States

section Tokens

variable (s : Scan)

/-- `Scan::sink` -/
def Scan.sink : Sink := s.sinks.headD root

/-- A change to the sink on top, which is made where there is none. -/
def Scan.onSink (f : Sink → Sink) : Scan := { s with sinks := f s.sink :: s.sinks.tail }

/-- A change to the current arm of the innermost group. -/
def Scan.onArm (f : Arm → Arm) : Scan :=
  match s.groups with
  | [] => s
  | group :: groups => { s with groups := { group with arms := group.arms.modifyLast f } :: groups }

/-- What a token tells the arm it stands in. -/
def Arm.see (arm : Arm) (kind : Kind) (text : Bytes) : Arm :=
  let arm := if arm.first = .unseen then { arm with first := if text = ascii "else" then .elseWord else .other } else arm
  if kind = .punct (byte '{') then { arm with braces := arm.braces.step 1 }
  else if kind = .punct (byte '}') then { arm with braces := arm.braces.step (-1) }
  else if kind = .punct (byte '(') then { arm with parens := arm.parens.step 1 }
  else if kind = .punct (byte ')') then { arm with parens := arm.parens.step (-1) }
  else arm

/-- The words a body may follow. -/
def BODY_HEADS : List Bytes := ["else", "do", "try", "const", "override", "final", "noexcept", "mutable"].map ascii

def Sink.word (sink : Sink) (start stop : Nat) (text : Bytes) : Sink :=
  let sink :=
    if text = ascii "else" then
      match sink.position with
      | .start => { sink with leadingElse := some (start, stop) }
      | .afterCloser => { sink with closers := sink.closers.modifyLast fun closer => { closer with elseAfter := some (start, stop) } }
      | .inside => sink
    else sink
  { sink with position := .inside, prev := if BODY_HEADS.contains text then .bodyHead else .other }

def inBody (outer : Option Open) : Bool := outer.any fun o => o.kind != .other

def Scan.openBrace (start : Nat) : Scan :=
  let outer := s.braces.getLast?
  let kind : BraceKind :=
    match s.sink.prev with
    | .bodyHead => if inBody outer then .block else .function
    | .boundary => if inBody outer then .block else .other
    | .other => .other
  let blocks : Int :=
    if kind = .block then
      match outer with
      | some o => if o.kind = .block then o.blocks + 1 else 1
      | none => 1
    else 0
  { s with braces := s.braces ++ [Open.mk start kind blocks] }.onSink fun sink => { sink with position := .inside, prev := .boundary }

def Scan.closeBrace (start : Nat) : Scan :=
  if s.sink.braceBase < s.braces.length then
    { s with braces := s.braces.dropLast }.onSink fun sink => { sink with position := .inside, prev := .boundary }
  else
    s.onSink fun sink => { sink with closers := sink.closers ++ [⟨start, none⟩], position := .afterCloser, prev := .boundary }

def Scan.openParen (start : Nat) : Scan :=
  { s with parens := s.parens ++ [start] }.onSink fun sink => { sink with position := .inside, prev := .other }

def Scan.closeParen : Scan :=
  if s.sink.parenBase < s.parens.length then
    { s with parens := s.parens.dropLast }.onSink fun sink => { sink with position := .inside, prev := .bodyHead }
  else s.onSink fun sink => { sink with parenClosed := true, position := .inside, prev := .bodyHead }

/-- `Scan::token` -/
def Scan.token (kind : Kind) (start stop : Nat) (text : Bytes) : Scan :=
  let s := s.onArm (·.see kind text)
  match kind with
  | .ident => s.onSink (·.word start stop text)
  | .punct b =>
    if b = byte '{' then s.openBrace start
    else if b = byte '}' then s.closeBrace start
    else if b = byte '(' then s.openParen start
    else if b = byte ')' then s.closeParen
    else
      s.onSink fun sink =>
        { sink with
          position := .inside
          prev := if b = byte ';' ∨ b = byte ':' then .boundary else if b = byte ']' then .bodyHead else .other }
  | _ => s.onSink fun sink => { sink with position := .inside, prev := .other }

end Tokens

section Arms

variable (s : Scan)

/-- `Scan::start_arm` -/
def Scan.startArm (directive : Span) (literal : Option Bool) : Option Scan :=
  match s.groups with
  | [] => none
  | group :: groups =>
    let kept := group.kept.isNone && !group.taken && literal != some false
    let arm : Arm := { directive, literal, sandboxed := !kept }
    let group' :=
      { group with
        arms := group.arms ++ [arm]
        kept := if kept then some group.arms.length else group.kept
        taken := if kept then literal == some true else group.taken }
    let sink : Sink := { braceBase := s.braces.length, parenBase := s.parens.length, prev := group.prevAtOpen }
    some { s with groups := group' :: groups, sinks := if kept then s.sinks else sink :: s.sinks }

/-- What of an arm with its own sink is blanked if the group is reduced: all of it, or its brackets without a partner. -/
def detached (group : Group) (arm : Arm) (sink : Sink) (braces : List Open) (parens : List Nat) (stop : Nat) : List Span :=
  let dead := arm.literal == some false || (group.kept.isSome && group.taken)
  let expression := sink.parenClosed || decide (sink.parenBase < parens.length)
  if dead || sink.isOpaque || expression then [(arm.directive.2, stop)]
  else
    sink.leadingElse.toList
      ++ sink.closers.flatMap (fun closer => (closer.offset, closer.offset + 1) :: closer.elseAfter.toList)
      ++ (braces.drop sink.braceBase).map fun o => (o.offset, o.offset + 1)

/-- `Scan::end_arm` -/
def Scan.endArm (stop : Nat) : Option Scan :=
  match s.groups with
  | [] => none
  | group :: groups =>
    group.arms.getLast?.bind fun arm =>
      if arm.sandboxed then
        match s.sinks with
        | [] => none
        | sink :: sinks =>
          -- the slice of the open braces from the base of the sink on
          if sink.braceBase ≤ s.braces.length then
            some
              { s with
                groups := { group with pending := group.pending ++ detached group arm sink s.braces s.parens stop } :: groups
                sinks := sinks
                braces := s.braces.take sink.braceBase
                parens := s.parens.take sink.parenBase }
          else none
      else some s

/-- Whether a group is reduced. -/
def Group.split (group : Group) (first : Arm) : Bool :=
  !group.arms.all Arm.whole && group.inBody && group.arms.all (fun arm => decide (-group.blocks ≤ arm.braces.low))
    && if group.arms.length = 1 then first.braces.net == 0 && first.parens.net == 0
      else group.arms.all fun arm => arm.braces.net == first.braces.net && arm.parens.net == first.parens.net

/-- What an arm gets from the arm kept of a group inside it. -/
def Arm.take (parent kept : Arm) : Arm :=
  { parent with
    first := if parent.first = .unseen then kept.first else parent.first
    braces := parent.braces.andThen kept.braces
    parens := parent.parens.andThen kept.parens }

/-- `Scan::resolve` -/
def Scan.resolve (endif : Span) : Option Scan :=
  match s.groups with
  | [] => none
  | group :: groups =>
    match group.kept with
    | none => some { s with groups }
    | some kept =>
      group.arms.head?.bind fun first => group.arms[kept]?.bind fun keptArm =>
        let s := { s with groups }
        let s :=
          if group.split first then { s with blanks := s.blanks ++ group.pending ++ group.arms.map Arm.directive ++ [endif] }
          else if group.arms.all Arm.whole then s
          else s.onSink fun sink => { sink with isOpaque := true }
        some (s.onArm fun parent => parent.take keptArm)

/-- `Scan::directive` -/
def Scan.directive (start stop : Nat) (text : Bytes) : Option Scan :=
  match PreprocArms.directive text with
  | some (.if_ literal) =>
    let outer := s.braces.getLast?
    let group : Group := { inBody := inBody outer, blocks := (outer.map Open.blocks).getD 0, prevAtOpen := s.sink.prev }
    let s := s.onSink id
    { s with groups := group :: s.groups }.startArm (start, stop) literal
  | some (.else_ literal) =>
    if s.groups.isEmpty then some s else (s.endArm start).bind fun s => s.startArm (start, stop) literal
  | some .endif => if s.groups.isEmpty then some s else (s.endArm start).bind fun s => s.resolve (start, stop)
  | none => some s

end Arms

section Passes

/-- `&source[start..end]` -/
def slice (src : Bytes) (span : Span) : Option Bytes :=
  if span.1 ≤ span.2 ∧ span.2 ≤ src.length then some ((src.drop span.1).take (span.2 - span.1)) else none

def scanToken (src : Bytes) (s : Scan) (token : Token) : Option Scan :=
  (slice src (token.start, token.stop)).bind fun text =>
    if token.kind = .directive then s.directive token.start token.stop text
    else some (s.token token.kind token.start token.stop text)

def scanTokens (src : Bytes) (tokens : List Token) : Option Scan := tokens.foldlM (scanToken src) {}

def blankByte (b : UInt8) : UInt8 := if isBreak b then b else byte ' '

/-- `out[start..end]` blanked -/
def blankSpan (out : Bytes) (span : Span) : Option Bytes :=
  (slice out span).map fun text => out.take span.1 ++ text.map blankByte ++ out.drop span.2

/-- `select_split_arms` -/
def selectSplitArms (src : Bytes) : Option (Option Bytes) :=
  if hasConditionalDirective true src then
    (scanTokens src (tokenize src)).bind fun s =>
      if s.blanks.isEmpty then some none else (s.blanks.foldlM blankSpan src).map some
  else some none

end Passes

end PreprocArms
end Parser
end CodeSage
