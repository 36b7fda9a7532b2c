import Mathlib.Logic.Basic

/-!
# CodeSage.Protocol.Symbol

`Symbol` (`crates/protocol/src/lib.rs`) with the fields the graph walks read, and the text of its
handle (`crates/protocol/src/handle.rs`).
-/

namespace CodeSage
namespace Protocol

structure Symbol where
  name : String
  qualifiedName : String
  filePath : String
  lineStart : Nat
  lineEnd : Nat
  overloaded : Bool := false
  deriving DecidableEq, Repr

/-- A definition's identity: `Symbol` carries no id. -/
abbrev SymbolKey := String × String × Nat

/-- `key_of`, `symbol_identity_key` -/
def keyOf (s : Symbol) : SymbolKey := (s.filePath, s.qualifiedName, s.lineStart)

/-- The characters with a meaning in a handle are percent-encoded. -/
def escape (component : String) : String :=
  component.foldl (fun out c =>
    match c with
    | '%' => out ++ "%25"
    | '#' => out ++ "%23"
    | '@' => out ++ "%40"
    | other => out.push other) ""

/-- `Symbol::handle` as text; the line only where the file has another definition of that name. -/
def Symbol.handle (s : Symbol) : String :=
  let qualified := if s.qualifiedName.isEmpty then s.name else s.qualifiedName
  let base := "sym:" ++ escape s.filePath ++ "#" ++ escape qualified
  if s.overloaded then base ++ "@" ++ toString s.lineStart else base

end Protocol
end CodeSage
