import Mathlib.Algebra.Order.Ring.Int
import Mathlib.Data.List.Basic
import CodeSage.Lib.Split
import CodeSage.Lib.Utf8

/-!
# CodeSage.Protocol.Handle

Entity handles (`crates/protocol/src/handle.rs`): their text and its parser. Texts are lists of
characters; a position in a text that the source finds by bytes is found here by characters, since every
separator and every escape sequence is ASCII.
-/

namespace CodeSage
namespace Protocol

open Lib

inductive Handle where
  | symbol (path qualified : List Char) (line : Option UInt32)
  | file (path : List Char)
  | dir (path : List Char)
  | chunk (path : List Char) (start stop : UInt32)
  | feature (id : List Char)
  deriving DecidableEq, Repr

namespace Handle

def FEATURE_PREFIX : List Char := ['f', 'e', 'a', 't', '_']

def FEATURE_HEX_LEN : Nat := 16

def SYM : List Char := ['s', 'y', 'm', ':']

def FILE : List Char := ['f', 'i', 'l', 'e', ':']

def DIR : List Char := ['d', 'i', 'r', ':']

def CHUNK : List Char := ['c', 'h', 'u', 'n', 'k', ':']

/-- How one character of a component is written. -/
def escapeChar : Char → List Char
  | '%' => ['%', '2', '5']
  | '#' => ['%', '2', '3']
  | '@' => ['%', '4', '0']
  | other => [other]

def escape (component : List Char) : List Char := component.flatMap escapeChar

/-- Any other `%` sequence stays as it is. -/
def unescape : List Char → List Char
  | [] => []
  | '%' :: '2' :: '5' :: rest => '%' :: unescape rest
  | '%' :: '2' :: '3' :: rest => '#' :: unescape rest
  | '%' :: '4' :: '0' :: rest => '@' :: unescape rest
  | c :: rest => c :: unescape rest

/-- `char::is_control`: the general category `Cc` -/
def isControl (c : Char) : Bool := c.toNat < 0x20 || (0x7F ≤ c.toNat && c.toNat < 0xA0)

/-- A repository-relative path that cannot escape the repository. -/
def validPath (path : List Char) : Bool :=
  !path.isEmpty
    && path.head? != some '/'
    && !path.contains '\\'
    && !path.any isControl
    && !(path.splitOn '/').any (· == ['.', '.'])

/-- `digits.parse()` into a `u32`, after the check that there are only digits -/
def parseLine (digits : List Char) : Option UInt32 :=
  if !digits.isEmpty && digits.all Char.isDigit then
    let n := Nat.ofDigitChars 10 digits 0
    if n < 2 ^ 32 then some (UInt32.ofNat n) else none
  else none

/-- `Handle::file` -/
def ofFile (path : List Char) : Option Handle := if validPath path then some (.file path) else none

/-- `Handle::dir` -/
def ofDir (path : List Char) : Option Handle := if validPath path then some (.dir path) else none

def isLowerHex (b : UInt8) : Bool := (0x30 ≤ b && b ≤ 0x39) || (0x61 ≤ b && b ≤ 0x66)

def parseFeature (input hex : List Char) : Option Handle :=
  if (Utf8.bytes hex).length == FEATURE_HEX_LEN && (Utf8.bytes hex).all isLowerHex then some (.feature input)
  else none

/-- The qualified name and the line of what follows the `#`. -/
def parseTail (tail : List Char) : Option (List Char × Option UInt32) :=
  match rsplitOnce '@' tail with
  | some (qualified, digits) => do
    let line ← parseLine digits
    return (qualified, some line)
  | none => some (tail, none)

def parseSymbol (rest : List Char) : Option Handle := do
  let (path, tail) ← splitOnce '#' rest
  let (qualified, line) ← parseTail tail
  -- a raw `@` is escaped inside components: a second one is a malformed suffix
  if qualified.contains '@' then none
  else
    let path := unescape path
    let qualified := unescape qualified
    if validPath path && !qualified.isEmpty then some (.symbol path qualified line) else none

def parseFile (rest : List Char) : Option Handle := ofFile (unescape rest)

def parseDir (rest : List Char) : Option Handle :=
  ofDir (unescape ((rest.dropSuffix? ['/']).getD rest))

def parseChunk (rest : List Char) : Option Handle := do
  let (path, range) ← rsplitOnce ':' rest
  let (start, stop) ← splitOnce '-' range
  let start ← parseLine start
  let stop ← parseLine stop
  let path := unescape path
  if validPath path && start ≤ stop then some (.chunk path start stop) else none

/-- `Handle::parse` -/
def parse (input : List Char) : Option Handle :=
  match input.dropPrefix? FEATURE_PREFIX with
  | some hex => parseFeature input hex
  | none =>
    match input.dropPrefix? SYM with
    | some rest => parseSymbol rest
    | none =>
      match input.dropPrefix? FILE with
      | some rest => parseFile rest
      | none =>
        match input.dropPrefix? DIR with
        | some rest => parseDir rest
        | none =>
          match input.dropPrefix? CHUNK with
          | some rest => parseChunk rest
          | none => none

/-- A `u32` in a format string. -/
def number (n : UInt32) : List Char := Nat.toDigits 10 n.toNat

def lineSuffix : Option UInt32 → List Char
  | some line => '@' :: number line
  | none => []

/-- `Display` -/
def toText : Handle → List Char
  | .symbol path qualified line =>
    SYM ++ (escape path ++ '#' :: (escape qualified ++ lineSuffix line))
  | .file path => FILE ++ escape path
  | .dir path => DIR ++ escape path
  | .chunk path start stop => CHUNK ++ (escape path ++ ':' :: (number start ++ '-' :: number stop))
  | .feature id => id

end Handle
end Protocol
end CodeSage
