import Mathlib.Data.List.Basic

/-!
# CodeSage.Parser.Lexer

The token stream over C and C++ sources that the passes before a parse share, and the copy of a source with its directives
alone (`crates/parser/src/export_macro.rs`).

A scanner is a recursion on the bytes ahead. Where the source moves its index by more than one byte, the scanner is told
how many bytes to pass unseen.
-/

namespace CodeSage
namespace Parser

abbrev Bytes := List UInt8

/-- `b'c'` -/
def byte (c : Char) : UInt8 := c.val.toUInt8

/-- What stands at the front of the bytes ahead. -/
def startsWith (text : List Char) (src : Bytes) : Bool := (text.map byte).isPrefixOf src

section Skips

/-- `slice::windows(needle.len()).position(..)` -/
def position (needle : Bytes) : Bytes → Option Nat
  | [] => none
  | b :: rest => if needle.isPrefixOf (b :: rest) then some 0 else (position needle rest).map (· + 1)

/-- `splice_len` -/
def spliceLen (src : Bytes) : Option Nat :=
  if startsWith ['\\', '\n'] src then some 2
  else if startsWith ['\\', '\r', '\n'] src then some 3
  else none

/-- `skip_line` -/
def skipLine (src : Bytes) : Nat := (src.takeWhile (· ≠ byte '\n')).length

/-- `skip_spliced_comment` -/
def skipSplicedComment : Nat → Bytes → Nat
  | _, [] => 0
  | pass + 1, _ :: rest => 1 + skipSplicedComment pass rest
  | 0, b :: rest => if b = byte '\n' then 0 else 1 + skipSplicedComment (((spliceLen (b :: rest)).getD 1) - 1) rest

/-- `skip_block_comment` -/
def skipBlockComment (src : Bytes) : Nat :=
  match position [byte '*', byte '/'] (src.drop 2) with
  | some p => 2 + p + 2
  | none => src.length

/-- `skip_directive` -/
def skipDirective : Nat → Bytes → Nat
  | _, [] => 0
  | pass + 1, _ :: rest => 1 + skipDirective pass rest
  | 0, b :: rest =>
    if b = byte '\n' then 0
    else
      match spliceLen (b :: rest) with
      | some length => 1 + skipDirective (length - 1) rest
      | none =>
        if startsWith ['/', '*'] (b :: rest) then 1 + skipDirective (skipBlockComment (b :: rest) - 1) rest
        else if startsWith ['/', '/'] (b :: rest) then skipLine (b :: rest)
        else 1 + skipDirective 0 rest

/-- The bytes of a literal behind its opening quote. -/
def quotedBody (quote : UInt8) : Bytes → Nat
  | [] => 0
  | [b] => if b = byte '\n' then 0 else 1
  | b :: c :: rest =>
    if b = byte '\\' then 2 + quotedBody quote rest
    else if b = byte '\n' then 0
    else if b = quote then 1
    else 1 + quotedBody quote (c :: rest)

/-- `skip_quoted` -/
def skipQuoted (quote : UInt8) (src : Bytes) : Nat := 1 + quotedBody quote (src.drop 1)

/-- `skip_raw_string` -/
def skipRawString (src : Bytes) : Nat :=
  let after := src.drop 1
  match (after.take 17).findIdx? (· = byte '(') with
  | none => skipQuoted (byte '"') src
  | some opening =>
    let close := byte ')' :: after.take opening ++ [byte '"']
    match position close (after.drop (opening + 1)) with
    | some p => 1 + opening + 1 + p + close.length
    | none => src.length

/-- `is_ascii_digit` -/
def isDigit (b : UInt8) : Bool := byte '0' ≤ b && b ≤ byte '9'

/-- `is_ascii_alphabetic` -/
def isAlphabetic (b : UInt8) : Bool := (byte 'a' ≤ b && b ≤ byte 'z') || (byte 'A' ≤ b && b ≤ byte 'Z')

/-- `is_ascii_alphanumeric` -/
def isAlphanumeric (b : UInt8) : Bool := isDigit b || isAlphabetic b

/-- `is_ascii_whitespace` -/
def isWhitespace (b : UInt8) : Bool := [byte ' ', byte '\t', byte '\n', 12, byte '\r'].contains b

def isExponent (b : UInt8) : Bool := [byte 'e', byte 'E', byte 'p', byte 'P'].contains b

/-- `skip_number`, behind the byte before the number -/
def skipNumber (before : UInt8) : Bytes → Nat
  | [] => 0
  | c :: rest =>
    let exponentSign := (c = byte '+' || c = byte '-') && isExponent before
    if isAlphanumeric c || [byte '_', byte '.', byte '\''].contains c || exponentSign then 1 + skipNumber c rest else 0

end Skips

section Tokens

/-- `Kind` -/
inductive Kind where
  | directive
  | str
  | ident
  | scope
  | other
  | punct (b : UInt8)
  deriving DecidableEq, Repr

/-- `Token` -/
structure Token where
  kind : Kind
  start : Nat
  stop : Nat
  deriving DecidableEq, Repr

def isIdent (b : UInt8) : Bool := isAlphanumeric b || b == byte '_' || 0x80 ≤ b

def isIdentStart (b : UInt8) : Bool := isAlphabetic b || b == byte '_' || 0x80 ≤ b

/-- The prefixes that make a raw string of what follows. -/
def RAW_PREFIXES : List Bytes := ["R", "LR", "uR", "UR", "u8R"].map fun name => name.toList.map byte

def isRawPrefix (word rest : Bytes) : Bool := rest.head? == some (byte '"') && RAW_PREFIXES.contains word

/-- A word, or the raw string it begins. -/
def scanWord (src : Bytes) : Kind × Nat :=
  let word := src.takeWhile isIdent
  let rest := src.dropWhile isIdent
  if isRawPrefix word rest then (.str, word.length + skipRawString rest) else (.ident, word.length)

/-- The token at the front of the bytes ahead, and its length. -/
def scanToken (lineStart : Bool) (before : UInt8) (b : UInt8) (rest : Bytes) : Kind × Nat :=
  if b = byte '#' && lineStart then (.directive, skipDirective 0 (b :: rest))
  else if b = byte '"' then (.str, skipQuoted (byte '"') (b :: rest))
  else if b = byte '\'' then (.str, skipQuoted (byte '\'') (b :: rest))
  else if isDigit b || (b = byte '.' && rest.head?.any isDigit) then (.other, skipNumber before (b :: rest))
  else if isIdentStart b then scanWord (b :: rest)
  else if startsWith [':', ':'] (b :: rest) then (.scope, 2)
  else (.punct b, 1)

/-- `Lexer::next`, to the end of the source -/
def lexFrom (i : Nat) (lineStart : Bool) (before : UInt8) : Nat → Bytes → List Token
  | _, [] => []
  | pass + 1, b :: rest => lexFrom (i + 1) lineStart b pass rest
  | 0, b :: rest =>
    if b = byte '\n' then lexFrom (i + 1) true b 0 rest
    else if isWhitespace b then lexFrom (i + 1) lineStart b 0 rest
    else if startsWith ['/', '/'] (b :: rest) then lexFrom (i + 1) lineStart b (skipLine (b :: rest) - 1) rest
    else if startsWith ['/', '*'] (b :: rest) then lexFrom (i + 1) lineStart b (skipBlockComment (b :: rest) - 1) rest
    else
      let token := scanToken lineStart before b rest
      ⟨token.1, i, i + token.2⟩ :: lexFrom (i + 1) false b (token.2 - 1) rest

/-- `tokenize` -/
def tokenize (src : Bytes) : List Token := lexFrom 0 true 0 0 src

end Tokens

section Directives

/-- The bytes of a directive behind its `#`, as `directives_only` copies them. -/
def copyDirective : Nat → Bytes → Nat
  | _, [] => 0
  | pass + 1, _ :: rest => 1 + copyDirective pass rest
  | 0, b :: rest =>
    if b = byte '\n' then 0
    else
      match spliceLen (b :: rest) with
      | some length => 1 + copyDirective (length - 1) rest
      | none =>
        if startsWith ['/', '/'] (b :: rest) then 1 + copyDirective (skipSplicedComment 0 (b :: rest) - 1) rest
        else if startsWith ['/', '*'] (b :: rest) then 1 + copyDirective (skipBlockComment (b :: rest) - 1) rest
        else if b = byte '\'' ∨ b = byte '"' then 1 + copyDirective (skipQuoted b (b :: rest) - 1) rest
        else 1 + copyDirective 0 rest

/-- A line break that is not spliced. -/
def breaksLine : Nat → Bytes → Bool
  | _, [] => false
  | pass + 1, _ :: rest => breaksLine pass rest
  | 0, b :: rest =>
    match spliceLen (b :: rest) with
    | some length => breaksLine (length - 1) rest
    | none => b == byte '\n' || breaksLine 0 rest

/-- What is passed at the front of the bytes ahead, where no directive, blank or comment begins. -/
def passLen (before : UInt8) (b : UInt8) (rest : Bytes) : Nat :=
  if b = byte '\'' ∨ b = byte '"' then skipQuoted b (b :: rest)
  else if isAlphabetic b || b == byte '_' then
    let isWord := fun b => isAlphanumeric b || b == byte '_'
    let word := (b :: rest).takeWhile isWord
    let after := (b :: rest).dropWhile isWord
    if isRawPrefix word after then word.length + skipRawString after else word.length
  else if isDigit b then skipNumber before (b :: rest)
  else 1

/-- The directives `directives_only` copies: where each begins and ends. -/
def extentsFrom (i : Nat) (lineStart : Bool) (before : UInt8) : Nat → Bytes → List (Nat × Nat)
  | _, [] => []
  | pass + 1, b :: rest => extentsFrom (i + 1) lineStart b pass rest
  | 0, b :: rest =>
    match spliceLen (b :: rest) with
    | some length => extentsFrom (i + 1) lineStart b (length - 1) rest
    | none =>
      if b = byte '\n' then extentsFrom (i + 1) true b 0 rest
      else if isWhitespace b then extentsFrom (i + 1) lineStart b 0 rest
      else if startsWith ['/', '/'] (b :: rest) then extentsFrom (i + 1) lineStart b (skipSplicedComment 0 (b :: rest) - 1) rest
      else if startsWith ['/', '*'] (b :: rest) then
        let length := skipBlockComment (b :: rest)
        extentsFrom (i + 1) (lineStart || breaksLine 0 ((b :: rest).take length)) b (length - 1) rest
      else if b = byte '#' && lineStart then
        let length := copyDirective 0 rest
        (i, i + 1 + length) :: extentsFrom (i + 1) lineStart b length rest
      else extentsFrom (i + 1) false b (passLen before b rest - 1) rest

/-- The bytes of a byte order mark. -/
def markLen (src : Bytes) : Nat := if [0xEF, 0xBB, 0xBF].isPrefixOf src then 3 else 0

def extents (src : Bytes) : List (Nat × Nat) := extentsFrom 0 true 0 (markLen src) src

def isBreak (b : UInt8) : Bool := b == byte '\n' || b == byte '\r'

/-- `directives_only` -/
def directivesOnly (src : Bytes) : Bytes :=
  src.zipIdx.map fun (b, i) =>
    if (extents src).any fun extent => extent.1 ≤ i && i < extent.2 then b else if isBreak b then b else byte ' '

end Directives

end Parser
end CodeSage
