import Mathlib.Algebra.Order.Ring.Int
import CodeSage.Protocol.HandleCorrect

/-!
# CodeSage.Graph.EditCheck

How `edit_check` selects the declaration to be replaced (`crates/graph/src/edit_check.rs`), and the handles it answers with
where several have the name. What follows the selection is a parameter.

The parser is outside: a node has its kind, its text, the row it starts in and its children, each with its field and
whether it is named.
-/

namespace CodeSage
namespace Graph
namespace EditCheck

open Lib Protocol

abbrev Text := List Char

section Tree

inductive Node where
  | mk (kind : String) (text : Text) (row : Nat) (children : List (Option String × Bool × Node))

namespace Node

def kind : Node → String
  | mk kind _ _ _ => kind

def text : Node → Text
  | mk _ text _ _ => text

def row : Node → Nat
  | mk _ _ row _ => row

def children : Node → List (Option String × Bool × Node)
  | mk _ _ _ children => children

def childByFieldName (node : Node) (field : String) : Option Node :=
  (node.children.find? fun c => c.1 = some field).map fun c => c.2.2

mutual

/-- The named nodes of a tree, each before its children. -/
def walk : Node → List Node
  | mk kind text row children => mk kind text row children :: walkAll children

def walkAll : List (Option String × Bool × Node) → List Node
  | [] => []
  | (_, named, node) :: rest => (if named then node.walk else []) ++ walkAll rest

end

mutual

/-- Down the declarators to the first of a function. -/
def declarator : Node → Node
  | mk kind text row children =>
    match fieldDeclarator children with
    | some next => next
    | none =>
      if kind = "reference_declarator" then (namedDeclarator children).getD (mk kind text row children)
      else mk kind text row children

def fieldDeclarator : List (Option String × Bool × Node) → Option Node
  | [] => none
  | (field, _, next) :: rest =>
    if field = some "declarator" then
      some (if next.kind = "function_declarator" then next else next.declarator)
    else fieldDeclarator rest

def namedDeclarator : List (Option String × Bool × Node) → Option Node
  | [] => none
  | (_, named, next) :: rest =>
    if named then some (if next.kind = "function_declarator" then next else next.declarator)
    else namedDeclarator rest

end

def declaresFunction (kind : String) : Bool :=
  ["identifier", "field_identifier", "qualified_identifier", "scoped_identifier", "operator_name",
    "destructor_name"].contains kind

/-- `function`: a declaration that `edit_check` takes. -/
def function (node : Node) : Bool :=
  ["function_item", "function_definition", "function_declaration", "method_declaration", "method_definition",
    "function_signature", "method_signature"].contains node.kind ||
  (["declaration", "field_declaration"].contains node.kind && node.declarator.kind = "function_declarator" &&
    (node.declarator.childByFieldName "declarator").any fun n => declaresFunction n.kind)

def name (node : Node) : Option Text :=
  ((node.childByFieldName "name").or (node.declarator.childByFieldName "declarator")).map text

/-- Lines count from one. -/
def startLine (node : Node) : Nat := node.row + 1

end Node

structure Tree where
  root : Node
  hasError : Bool

end Tree

section Target

inductive EditCheckRefusal where
  | param (message : String)
  | notFound (message : String)
  | ambiguous (message : String) (lines : List Nat) (handles : List Text)
  | incomplete (message : String)

/-- The unqualified declaration name a qualified name ends in. -/
def declarationName (qualified : Text) : Text :=
  match [[':', ':'], ['\\'], ['.']].filterMap fun sep => afterLast sep qualified with
  | [] => qualified
  | tail :: tails => tails.foldl (fun a b => if b.length < a.length then b else a) tail

/-- `u32::try_from(line).ok()` -/
def lineU32 (line : Nat) : Option UInt32 := if line < 2 ^ 32 then some (UInt32.ofNat line) else none

def declarationHandle (file symbol : Text) (line : Nat) : Text := (Handle.symbol file symbol (lineU32 line)).toText

/-- Read a handle as a declaration name and a line; a bare name passes through. -/
def parseEditTarget (file symbol : Text) (line : Option Nat) : Except EditCheckRefusal (Text × Option Nat) :=
  match Handle.parse symbol with
  | none => .ok (symbol, line)
  | some (.symbol path qualified handleLine) =>
    if path ≠ file then
      .error (.param ("handle names `" ++ String.ofList path ++ "`, but `file` is `" ++ String.ofList file ++ "`"))
    else .ok (declarationName qualified, line.or (handleLine.map UInt32.toNat))
  | some _ => .error (.param "symbol must be a declaration name or a `sym:` handle")

end Target

section Select

/-- The declarations of a name, those that start in a line if one is given. -/
def declarations (root : Node) (symbol : Text) (line : Option Nat) : List Node :=
  root.walk.filter fun n =>
    n.function && decide (n.name = some symbol) && line.all fun line => decide (n.startLine = line)

def notFoundMessage (file symbol : Text) (line : Option Nat) : String :=
  "no declaration named '" ++ String.ofList symbol ++ "'" ++
    ((line.map fun line => " starting at line " ++ toString line).getD "") ++ " at HEAD in " ++ String.ofList file

def ambiguousMessage (symbol : Text) (lines : List Nat) (handles : List Text) : String :=
  "expected one declaration named '" ++ String.ofList symbol ++ "' at HEAD; found " ++ toString lines.length ++
    " starting at lines " ++ String.intercalate ", " (lines.map toString) ++ " (supply `line` or one of " ++
    String.intercalate ", " (handles.map String.ofList) ++ " to disambiguate)"

/-- The declaration that is replaced. -/
def selectDeclaration (root : Node) (file symbol : Text) (line : Option Nat) : Except EditCheckRefusal Node :=
  match declarations root symbol line with
  | [old] => .ok old
  | [] => .error (.notFound (notFoundMessage file symbol line))
  | several =>
    let lines := several.map Node.startLine
    let handles := lines.map (declarationHandle file symbol)
    .error (.ambiguous (ambiguousMessage symbol lines handles) lines handles)

variable {ρ : Type}

/-- `check_source_cached` with what it does to the selected declaration. -/
def checkSource (compare : Node → Except EditCheckRefusal ρ) (tree : Tree) (file symbol : Text) (line : Option Nat) :
    Except EditCheckRefusal ρ :=
  if tree.hasError then .error (.incomplete "HEAD source has syntax errors; compatibility is unknown")
  else
    match selectDeclaration tree.root file symbol line with
    | .error refusal => .error refusal
    | .ok old => compare old

/-- What `edit_check` does with a symbol or a handle. -/
def checkTarget (compare : Node → Except EditCheckRefusal ρ) (tree : Tree) (file symbol : Text) (line : Option Nat) :
    Except EditCheckRefusal ρ :=
  match parseEditTarget file symbol line with
  | .error refusal => .error refusal
  | .ok (name, line) => checkSource compare tree file name line

/-- The declaration a symbol or a handle selects. -/
def selected (tree : Tree) (file symbol : Text) (line : Option Nat) : Except EditCheckRefusal Node :=
  checkTarget .ok tree file symbol line

/-- The rest of the check gets the declaration that is selected, or nothing. -/
theorem checkTarget_eq_bind (compare : Node → Except EditCheckRefusal ρ) (tree : Tree) (file symbol : Text)
    (line : Option Nat) : checkTarget compare tree file symbol line = (selected tree file symbol line).bind compare := by
  rw [selected, checkTarget, checkTarget]
  rcases parseEditTarget file symbol line with refusal | ⟨name, line⟩
  · rfl
  · simp only [checkSource]
    split
    · rfl
    · rcases selectDeclaration tree.root file name line with refusal | old <;> rfl

end Select

end EditCheck
end Graph
end CodeSage
