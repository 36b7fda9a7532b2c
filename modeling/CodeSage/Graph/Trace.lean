import Mathlib.Data.List.Infix
import Mathlib.Algebra.Order.Ring.Int
import CodeSage.Lib.Outline
import CodeSage.Lib.Text
import CodeSage.Lib.Utf8

/-!
# CodeSage.Graph.Trace

A pasted stack trace cut into stacks and put in root-cause-first order (`crates/graph/src/trace_locate.rs`),
with the line patterns of the `java` format, and the layout in which `Throwable.printStackTrace` prints an
exception with its causes and its suppressed exceptions.

`digit` is the class `\d` of the pattern language.
-/

namespace CodeSage
namespace Graph
namespace Trace

open Lib

structure RawFrame where
  raw : Text
  function : Option Text
  file : Option Text
  line : Option UInt32
deriving DecidableEq, Repr

abbrev Stack := List RawFrame

inductive StackOrder where
  | asPrinted | reversed | runningFirst
deriving DecidableEq, Repr

/-- The fields of a `Format` that `parse_with` reads. -/
structure Format where
  extract : List Text → List RawFrame
  reversed : Bool
  separator : Option (Text → Bool)
  stackOrder : StackOrder

structure Chunk where
  header : Option Text
  indent : Nat
  lines : List Text
deriving DecidableEq, Repr

/-- `l.len() - l.trim_start().len()` -/
def indentOf (l : Text) : Nat := Utf8.size l - Utf8.size (l.dropWhile isWhitespace)

/-- One line of the loop of `split_stacks`: the chunks that are done, and the last one. -/
def splitLine (sep : Text → Bool) (state : List Chunk × Chunk) (l : Text) : List Chunk × Chunk :=
  if sep l then (state.1 ++ [state.2], ⟨some l, indentOf l, [l]⟩)
  else (state.1, { state.2 with lines := state.2.lines ++ [l] })

def splitStacks (lines : List Text) (sep : Option (Text → Bool)) : List Chunk :=
  match sep with
  | none => [⟨none, 0, lines⟩]
  | some sep =>
    let state := lines.foldl (splitLine sep) ([], ⟨none, 0, []⟩)
    state.1 ++ [state.2]

/-- A chunk as `parse_with` keeps it: the heading, its indent and the frames. -/
structure Extracted where
  header : Option Text
  indent : Nat
  frames : Stack
deriving DecidableEq, Repr

def extractChunk (f : Format) (chunk : Chunk) : Extracted :=
  let frames := f.extract chunk.lines
  ⟨chunk.header, chunk.indent, if f.reversed then frames.reverse else frames⟩

def CAUSED_BY : Text := "Caused by:".toList
def SUPPRESSED : Text := "Suppressed:".toList

/-- `^\s*(?:Caused by|Suppressed):` -/
def javaSep (l : Text) : Bool :=
  CAUSED_BY.isPrefixOf (l.dropWhile isWhitespace) || SUPPRESSED.isPrefixOf (l.dropWhile isWhitespace)

/-- `^\s*Suppressed:` -/
def javaSuppressed (l : Text) : Bool := SUPPRESSED.isPrefixOf (l.dropWhile isWhitespace)

/-- The loop over the stacks: the primary cause chain, the other stacks, and the indents of the open
suppressed blocks, innermost first. -/
structure Grouped where
  chain : List Stack
  side : List Stack
  blocks : List Nat
deriving DecidableEq, Repr

def groupStack (g : Grouped) (s : Extracted) : Grouped :=
  match s.header with
  | none => { g with chain := g.chain ++ [s.frames] }
  | some h =>
    let blocks := g.blocks.dropWhile (s.indent < ·)
    if javaSuppressed h then ⟨g.chain, g.side ++ [s.frames], s.indent :: blocks⟩
    else if !blocks.isEmpty then ⟨g.chain, g.side ++ [s.frames], blocks⟩
    else ⟨g.chain ++ [s.frames], g.side, blocks⟩

def groupStacks (framed : List Extracted) : Grouped := framed.foldl groupStack ⟨[], [], []⟩

/-- `h.starts_with("goroutine ") && h.contains("[running]")` -/
def isRunning (header : Option Text) : Bool :=
  header.any fun h => "goroutine ".toList.isPrefixOf h && decide ("[running]".toList <:+: h)

structure Parsed where
  «stacks» : List Stack
  rootCauseFirst : Bool
deriving DecidableEq, Repr

/-- The stacks with frames, as `parse_with` orders them. -/
def framedStacks (f : Format) (lines : List Text) : List Extracted :=
  ((splitStacks lines f.separator).map (extractChunk f)).filter fun s => !s.frames.isEmpty

def parseWith (f : Format) (lines : List Text) : Parsed :=
  let framed := framedStacks f lines
  match f.stackOrder with
  | .asPrinted => ⟨framed.map (·.frames), false⟩
  | .reversed =>
    let g := groupStacks framed
    ⟨g.chain.reverse ++ g.side, true⟩
  | .runningFirst =>
    let running := framed.any fun s => isRunning s.header
    ⟨(framed.mergeSort fun a b => isRunning a.header || !isRunning b.header).map (·.frames), running⟩

section Java

variable (digit : Char → Bool)

/-- The group `(?::(?P<line>\d+))?` and what follows it. -/
def javaLine (rest : Text) : Option Text × Text :=
  match rest with
  | ':' :: r =>
    let digits := r.takeWhile digit
    if digits.isEmpty then (none, rest) else (some digits, r.drop digits.length)
  | _ => (none, rest)

/-- The groups of `^\s*at (?P<func>[^\s(]+)\((?P<file>[^:)]+)(?::(?P<line>\d+))?\)\s*$` -/
def javaGroups (l : Text) : Option (Text × Text × Option Text) := do
  let rest ← (l.dropWhile isWhitespace).dropPrefix? "at ".toList
  let func := rest.takeWhile fun c => !isWhitespace c && c != '('
  if func.isEmpty then none
  let rest ← (rest.drop func.length).dropPrefix? ['(']
  let file := rest.takeWhile fun c => c != ':' && c != ')'
  if file.isEmpty then none
  let (line, rest) := javaLine digit (rest.drop file.length)
  let tail ← rest.dropPrefix? [')']
  if tail.all isWhitespace then some (func, file, line) else none

def javaFrame (l : Text) : Option RawFrame := do
  let (func, file, line) ← javaGroups digit l
  let file := (some file).filter fun f =>
    f != "Native Method".toList && f != "Unknown Source".toList && f.contains '.'
  return ⟨l.rdropWhile isWhitespace, some func, file, if file.isSome then line.bind parseU32 else none⟩

def extractJava (lines : List Text) : List RawFrame := lines.filterMap (javaFrame digit)

def java : Format := ⟨extractJava digit, false, some javaSep, .reversed⟩

end Java

section PrintStackTrace

variable (digit : Char → Bool)

/-- What an exception prints of itself: its `toString`, the frames, and how many frames it shares with the
exception around it and leaves out. No line of the `toString` looks like a heading or like a frame. -/
structure Own where
  title : Text
  message : List Text
  frames : List Text
  elided : Nat
  plain : ∀ l ∈ title :: message, javaSep l = false ∧ javaFrame digit l = none

/-- An exception with its suppressed exceptions and its cause. -/
inductive Thrown where
  | mk (own : Own digit) (suppressed : List Thrown) (cause : Option Thrown)

inductive Heading where
  | root | causedBy | suppressed
deriving DecidableEq, Repr

/-- The lines one exception prints, from its heading to the next heading. -/
structure Block where
  heading : Heading
  depth : Nat
  own : Own digit

variable {digit}

def tabs (n : Nat) : Text := List.replicate n '\t'

def Heading.caption : Heading → Text
  | .root => []
  | .causedBy => CAUSED_BY ++ [' ']
  | .suppressed => SUPPRESSED ++ [' ']

def Block.headingLine (b : Block digit) : Text := tabs b.depth ++ b.heading.caption ++ b.own.title

def Block.frameLines (b : Block digit) : List Text :=
  b.own.frames.map fun f => tabs b.depth ++ "\tat ".toList ++ f

def Block.elidedLines (b : Block digit) : List Text :=
  if b.own.elided = 0 then [] else [tabs b.depth ++ "\t... ".toList ++ decimal b.own.elided ++ " more".toList]

def Block.lines (b : Block digit) : List Text :=
  b.headingLine :: (b.own.message ++ b.frameLines ++ b.elidedLines)

/-- The frames the format reads in a block. -/
def Block.stack (b : Block digit) : Stack := b.frameLines.filterMap (javaFrame digit)

/-- The block prints a frame. -/
def Block.bears (b : Block digit) : Bool := !b.stack.isEmpty

mutual

/-- `printEnclosedStackTrace`: the exception, the suppressed ones a tab deeper, then its cause. -/
def Thrown.blocks (heading : Heading) (depth : Nat) : Thrown digit → List (Block digit)
  | .mk own suppressed cause =>
    ⟨heading, depth, own⟩ :: (suppressedBlocks (depth + 1) suppressed ++ causeBlocks depth cause)

def suppressedBlocks (depth : Nat) : List (Thrown digit) → List (Block digit)
  | [] => []
  | t :: ts => t.blocks .suppressed depth ++ suppressedBlocks depth ts

def causeBlocks (depth : Nat) : Option (Thrown digit) → List (Block digit)
  | none => []
  | some t => t.blocks .causedBy depth

end

def Thrown.printed (t : Thrown digit) : List (Block digit) := t.blocks .root 0

/-- `Throwable.printStackTrace` -/
def Thrown.printStackTrace (t : Thrown digit) : List Text := t.printed.flatMap Block.lines

/-- The exception and its causes, as they print. -/
def Thrown.causes (heading : Heading) : Thrown digit → List (Block digit)
  | .mk own _ none => [⟨heading, 0, own⟩]
  | .mk own _ (some cause) => ⟨heading, 0, own⟩ :: cause.causes .causedBy

/-- The suppressed exceptions with all that is nested in them, as they print. -/
def Thrown.nested : Thrown digit → List (Block digit)
  | .mk _ suppressed none => suppressedBlocks 1 suppressed
  | .mk _ suppressed (some cause) => suppressedBlocks 1 suppressed ++ cause.nested

/-- The stacks of the primary cause chain, the exception itself first. -/
def Thrown.primaryStacks (t : Thrown digit) : List Stack := ((t.causes .root).filter Block.bears).map Block.stack

def Thrown.nestedStacks (t : Thrown digit) : List Stack := (t.nested.filter Block.bears).map Block.stack

end PrintStackTrace

end Trace
end Graph
end CodeSage
