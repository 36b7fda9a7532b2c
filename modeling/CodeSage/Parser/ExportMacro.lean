import CodeSage.Parser.PreprocViews

/-!
# CodeSage.Parser.ExportMacro

The passes that overwrite export and visibility macros before a parse (`crates/parser/src/export_macro.rs`).

A loop of the source over token indices is a recursion on the tokens ahead, told how many of them to pass; a loop it bounds is
a recursion on the bound. A value is `none` where the code would panic.
-/

namespace CodeSage
namespace Parser
namespace ExportMacro

open PreprocArms (ascii blankByte slice textOf)

section Words

/-- `SUFFIXES` -/
def SUFFIXES : List Bytes := ["_API", "_EXPORT", "_IMPORT", "_DLLEXPORT", "_DEPRECATED"].map ascii

def MAX_ARGS_BYTES : Nat := 512

def CLASS_KEYS : List Bytes := ["class", "struct", "union", "enum"].map ascii

def SPECIFIER_KEYS : List Bytes :=
  ["static", "inline", "virtual", "explicit", "friend", "constexpr", "extern", "template"].map ascii

def MAX_MACRO_RUN : Nat := 8

def MAX_HEAD_TOKENS : Nat := 64

def C_MACROS : List Bytes := ["PHPAPI", "ZEND_COLD", "ZEND_FASTCALL", "ZEND_NORETURN"].map ascii

def C_QUALIFIERS : List Bytes :=
  ["const", "volatile", "restrict", "static", "inline", "extern", "register", "_Noreturn", "_Atomic", "_Thread_local",
    "thread_local", "constexpr", "struct", "union", "enum"].map ascii

def QUALIFIER_KEYS : List Bytes :=
  ["const", "volatile", "static", "inline", "virtual", "explicit", "friend", "constexpr", "consteval", "constinit", "extern",
    "mutable", "typename", "thread_local", "register", "struct", "class", "enum", "union"].map ascii

def PRIMITIVE_KEYS : List Bytes :=
  ["void", "bool", "char", "wchar_t", "char8_t", "char16_t", "char32_t", "short", "int", "long", "float", "double", "signed",
    "unsigned", "auto"].map ascii

def isUppercase (b : UInt8) : Bool := byte 'A' ≤ b && b ≤ byte 'Z'

/-- `is_candidate` -/
def isCandidate (text : Bytes) : Bool :=
  text.head?.any isUppercase && text.all (fun b => isUppercase b || isDigit b || b == byte '_')
    && SUFFIXES.any fun suffix => decide (suffix.length + 2 ≤ text.length) && suffix.isSuffixOf text

end Words

section Tokens

variable (tokens : List Token) (src : Bytes)

def kindAt (i : Nat) : Option Kind := (tokens[i]?).map Token.kind

def isPunct (kind : Option Kind) (chars : List Char) : Bool :=
  match kind with
  | some (.punct b) => (chars.map byte).contains b
  | _ => false

/-- `ident_is` -/
def identIs (token : Option Token) (words : List Bytes) : Bool :=
  token.any fun t => t.kind == .ident && words.contains (textOf src t)

/-- The tokens of an argument list, with `depth + 1` parentheses open. -/
def argsEnd (limit : Nat) : Nat → Nat → List Token → Option Nat
  | _, _, [] => none
  | depth, j, t :: rest =>
    if limit < t.start then none
    else if t.kind = .punct (byte '(') then argsEnd limit (depth + 1) (j + 1) rest
    else if t.kind = .punct (byte ')') then
      match depth with
      | 0 => some (j + 1)
      | depth + 1 => argsEnd limit depth (j + 1) rest
    else if isPunct (some t.kind) [';', '{', '}'] || t.kind == .directive then none
    else argsEnd limit depth (j + 1) rest

/-- `after_args` -/
def afterArgs (i : Nat) : Option Nat :=
  match tokens[i + 1]? with
  | none => some (i + 1)
  | some opening =>
    if opening.kind = .punct (byte '(') then argsEnd (opening.start + MAX_ARGS_BYTES) 0 (i + 2) (tokens.drop (i + 2))
    else some (i + 1)

/-- `skip_candidates` -/
def skipCandidates : Nat → Nat → Nat
  | 0, j => j
  | fuel + 1, j =>
    match tokens[j]? with
    | none => j
    | some t =>
      if t.kind = .ident ∧ isCandidate (textOf src t) = true then
        match afterArgs tokens j with
        | some next => skipCandidates fuel next
        | none => j
      else j

/-- The `>` that closes template arguments, with `depth + 1` of them open. -/
def templateEnd (limit : Nat) : Nat → Nat → List Token → Option Nat
  | _, _, [] => none
  | depth, j, t :: rest =>
    if t.kind = .punct (byte '<') then if limit ≤ j then none else templateEnd limit (depth + 1) (j + 1) rest
    else if t.kind = .punct (byte '>') then
      match depth with
      | 0 => some j
      | depth + 1 => if limit ≤ j then none else templateEnd limit depth (j + 1) rest
    else if isPunct (some t.kind) [';', '{', '}'] then none
    else if limit ≤ j then none
    else templateEnd limit depth (j + 1) rest

def declares (names : Nat) (stop : Kind) : Bool :=
  match names with
  | 2 => true
  | 1 => stop == .punct (byte '(')
  | _ => false

/-- `declarator_head`; every turn of the loop moves at least one token on. -/
def declaratorFrom (head : Nat) : Nat → Nat → Nat → Bool → Bool → Bool
  | 0, _, _, _, _ => false
  | fuel + 1, j, idents, primitive, afterScope =>
    if head + MAX_HEAD_TOKENS ≤ j then false
    else
      match tokens[j]? with
      | none => false
      | some t =>
        match t.kind with
        | .ident =>
          let word := textOf src t
          if word = ascii "operator" then declares (idents + 1 + primitive.toNat) (.punct (byte '('))
          else if PRIMITIVE_KEYS.contains word then declaratorFrom head fuel (j + 1) idents true false
          else if !QUALIFIER_KEYS.contains word && !afterScope then declaratorFrom head fuel (j + 1) (idents + 1) primitive false
          else declaratorFrom head fuel (j + 1) idents primitive false
        | .scope => declaratorFrom head fuel (j + 1) idents primitive true
        | .punct b =>
          if b = byte '~' then idents + primitive.toNat == 0
          else if b = byte '*' ∨ b = byte '&' then declaratorFrom head fuel (j + 1) idents primitive afterScope
          else if b = byte '<' then
            match templateEnd (head + MAX_HEAD_TOKENS) 0 (j + 1) (tokens.drop (j + 1)) with
            | some closing => declaratorFrom head fuel (closing + 1) idents primitive afterScope
            | none => false
          else declares (idents + primitive.toNat) (.punct b)
        | kind => declares (idents + primitive.toNat) kind

def declaratorHead (head : Nat) : Bool := declaratorFrom tokens src head MAX_HEAD_TOKENS head 0 false false

/-- `Form` -/
inductive Form where
  | spaces
  | attribute
  | cSpecifier
  deriving DecidableEq, Repr

/-- `MacroSpan` -/
structure MacroSpan where
  start : Nat
  stop : Nat
  form : Form
  deriving DecidableEq, Repr

/-- `prev_idx.and_then(|p| p.checked_sub(1))` -/
def before (i : Option Nat) : Option Token :=
  match i with
  | some (p + 1) => tokens[p]?
  | _ => none

/-- `qualifies` -/
def qualifies (prevIdx : Option Nat) (next : Nat) : Option Form :=
  let prev := prevIdx.bind (tokens[·]?)
  let head := skipCandidates tokens src MAX_MACRO_RUN next
  (tokens[head]?).bind fun first =>
    let after := kindAt tokens (head + 1)
    if identIs src prev CLASS_KEYS then
      let instantiation := identIs src (before tokens prevIdx) [ascii "template"]
      let named := !instantiation && first.kind == .ident && !identIs src (some first) [ascii "final"]
        && (isPunct after ['{', ':', '<'] || after == some .scope || identIs src tokens[head + 1]? [ascii "final"])
      if named then some .spaces else none
    else
      let declarationStart :=
        match prev.map Token.kind with
        | none | some .directive => true
        | some (.punct b) => ([';', '{', '}', ':', '>', ']'].map byte).contains b
        | some .ident => identIs src prev SPECIFIER_KEYS
        | some .str => identIs src (before tokens prevIdx) [ascii "extern"]
        | _ => false
      let form : Form := if prev.map Token.kind = some .ident ∨ identIs src (some first) [ascii "friend"] = true then .spaces else .attribute
      let shaped :=
        match first.kind with
        | .punct b => b == byte '~'
        | .ident => after.isSome && !isPunct after [';', '=', ',', '[', ')', '{', '}', ':'] && declaratorHead tokens src head
        | _ => false
      if declarationStart && shaped then some form else none

/-- The macro that begins at a token, where there is one to overwrite, and the token behind it. -/
def macroAt (prev : Option Nat) (i : Nat) (t : Token) : Option (MacroSpan × Nat) :=
  if t.kind = .ident ∧ isCandidate (textOf src t) = true then
    (afterArgs tokens i).bind fun next => (qualifies tokens src prev next).bind fun form =>
      (tokens[next - 1]?).map fun last => (⟨t.start, last.stop, form⟩, next)
  else none

/-- `blank_spans` -/
def blankSpansFrom (prev : Option Nat) (i : Nat) : Nat → List Token → List MacroSpan
  | _, [] => []
  | pass + 1, _ :: rest => blankSpansFrom prev (i + 1) pass rest
  | 0, t :: rest =>
    match macroAt tokens src prev i t with
    | some (span, next) => span :: blankSpansFrom prev (i + 1) (next - i - 1) rest
    | none => blankSpansFrom (some i) (i + 1) 0 rest

def blankSpans : List MacroSpan := blankSpansFrom tokens src none 0 0 tokens

end Tokens

section CHeads

variable (tokens : List Token) (src : Bytes)

/-- The run of macros at a function head. -/
def macroRun : Nat → Nat → List MacroSpan → Option (Nat × List MacroSpan)
  | 0, i, spans => some (i, spans)
  | fuel + 1, i, spans =>
    (tokens[i]?).bind fun t =>
      if t.kind = .ident ∧ (isCandidate (textOf src t) = true ∨ C_MACROS.contains (textOf src t) = true) then
        (afterArgs tokens i).bind fun next => (tokens[next - 1]?).bind fun last =>
          let form : Form := if spans.isEmpty then .cSpecifier else .spaces
          let args := if t.stop < last.stop then [MacroSpan.mk t.stop last.stop .spaces] else []
          macroRun fuel next (spans ++ ⟨t.start, t.stop, form⟩ :: args)
      else some (i, spans)

/-- The head behind the macros, up to its parameter list. -/
def headEnd : Nat → Nat → List MacroSpan → Nat → Bool → Option (Nat × List MacroSpan)
  | 0, _, _, _, _ => none
  | fuel + 1, i, spans, idents, primitive =>
    (tokens[i]?).bind fun t =>
      match t.kind with
      | .ident =>
        let word := textOf src t
        if C_MACROS.tail.contains word ∧ kindAt tokens (i + 1) ≠ some (.punct (byte '(')) then
          headEnd fuel (i + 1) (spans ++ [⟨t.start, t.stop, .spaces⟩]) idents primitive
        else if PRIMITIVE_KEYS.contains word || word == ascii "_Bool" then headEnd fuel (i + 1) spans idents true
        else headEnd fuel (i + 1) spans (if C_QUALIFIERS.contains word then idents else idents + 1) primitive
      | .punct b =>
        if b = byte '*' then headEnd fuel (i + 1) spans idents primitive
        else if b = byte '(' then if idents + primitive.toNat = 2 then some (i, spans) else none
        else none
      | _ => none

/-- `c_function_head` -/
def cFunctionHead (start : Nat) : Option (Nat × List MacroSpan) :=
  (macroRun tokens src MAX_MACRO_RUN start []).bind fun (i, spans) =>
    if spans.isEmpty then none else headEnd tokens src (start + MAX_HEAD_TOKENS - i) i spans 0 false

def declarationStart (i : Nat) : Bool :=
  match before tokens (some i) with
  | none => true
  | some prev =>
    match prev.kind with
    | .directive => true
    | .punct b => ([';', '{', '}'].map byte).contains b
    | .ident => identIs src (some prev) (["static", "inline", "extern", "_Noreturn"].map ascii)
    | _ => false

/-- The loop of `neutralize_c` -/
def cSpansFrom (i : Nat) : Nat → List Token → List MacroSpan
  | _, [] => []
  | pass + 1, _ :: rest => cSpansFrom (i + 1) pass rest
  | 0, _ :: rest =>
    match if declarationStart tokens src i then cFunctionHead tokens src i else none with
    | some (next, spans) => spans ++ cSpansFrom (i + 1) (next - i - 1) rest
    | none => cSpansFrom (i + 1) 0 rest

def cSpans : List MacroSpan := cSpansFrom tokens src 0 0 tokens

end CHeads

section Passes

/-- The bytes of a span, overwritten. -/
def overwriteText (src : Bytes) (span : MacroSpan) (text : Bytes) : Option Bytes :=
  let spaces := text.map blankByte
  let n := span.stop - span.start
  if span.form = .attribute ∧ 5 ≤ n ∧ ((src.drop (span.stop - 2)).take 2).any isBreak = false then
    some (ascii "[[a" ++ (spaces.drop 3).take (n - 5) ++ ascii "]]")
  else if span.form = .cSpecifier then if 6 ≤ n then some (ascii "extern" ++ spaces.drop 6) else none
  else some spaces

def overwriteSpan (src out : Bytes) (span : MacroSpan) : Option Bytes :=
  (slice out (span.start, span.stop)).bind fun text =>
    (overwriteText src span text).map fun text' => out.take span.start ++ text' ++ out.drop span.stop

/-- `overwrite_spans` -/
def overwriteSpans (src : Bytes) (spans : List MacroSpan) : Option (Option Bytes) :=
  if spans.isEmpty then some none else (spans.foldlM (overwriteSpan src) src).map some

/-- `source.windows(s.len()).any(|w| w == *s)` -/
def holdsAny (words : List Bytes) (src : Bytes) : Bool := words.any fun word => (position word src).isSome

/-- `neutralize` -/
def neutralize (src : Bytes) : Option (Option Bytes) :=
  if holdsAny SUFFIXES src then overwriteSpans src (blankSpans (tokenize src) src) else some none

/-- `neutralize_c` -/
def neutralizeC (src : Bytes) : Option (Option Bytes) :=
  if holdsAny (SUFFIXES ++ C_MACROS) src then overwriteSpans src (cSpans (tokenize src) src) else some none

end Passes

end ExportMacro
end Parser
end CodeSage
