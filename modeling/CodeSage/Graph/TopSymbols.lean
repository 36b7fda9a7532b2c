import Mathlib.Data.List.Infix
import Mathlib.Algebra.Order.Ring.Int
import CodeSage.Lib.Text
import CodeSage.Lib.Ranking
import Mathlib.Order.Defs.LinearOrder

/-!
# CodeSage.Graph.TopSymbols

The ranking of a file's symbols, `compute_top_symbols` (`crates/graph/src/git_history/risk.rs`), over the rows of the
table `refs`. A symbol is resolved when it could be among the first ones.

Counts are natural numbers. The score is a function of the number of lines and the number of references; the resolver is
a function of the symbol. `Round` is what a turn of the loop meets from outside.
-/

namespace CodeSage
namespace Graph
namespace TopSymbols

open Lib

/-- A row of `refs`, with its file and what `REF_IS_TEST_SQL` says of it. -/
structure Reference where
  fromFile : Text
  toName : Text
  toNameTail : Text
  line : Nat
  isTest : Bool
deriving DecidableEq

structure Symbol where
  name : Text
  kind : Text
  lineStart : Nat
  lineEnd : Nat
  isTest : Bool
deriving DecidableEq

section Queries

variable (refs : List Reference) (name : Text)

/-- The row of one name in `reference_counts_for_names`. -/
def referenceCount : Nat :=
  (((refs.filter fun r => r.toName = name) ++ (refs.filter fun r => r.toNameTail = name && r.toNameTail ≠ r.toName)).map
    fun r => (r.fromFile, r.line)).dedup.length

def isQualified : Bool := name.contains '\\' || decide ("::".toList <:+: name) || name.contains '/'

def findReferences : List Reference :=
  if isQualified name then refs.filter fun r => r.toName = name
  else refs.filter fun r => r.toNameTail = name || r.toName = name

end Queries

structure SymbolRank where
  lineCount : Nat
  ranked : Bool
  raw : Nat
  resolved : Option Nat
  shared : Bool
  capped : Bool
deriving DecidableEq

/-- A symbol with its rank. -/
structure Entry where
  symbol : Symbol
  rank : SymbolRank
deriving DecidableEq

inductive Failure where
  | failed
  | stuck
deriving DecidableEq

/-- Before the names are counted. -/
def lineCount (s : Symbol) : Nat := min (s.lineEnd - s.lineStart + 1) (2 ^ 32 - 1)

/-- A count of zero is resolved. -/
def seed (refs : List Reference) (s : Symbol) : Entry :=
  let raw := referenceCount refs s.name
  ⟨s, { lineCount := lineCount s, ranked := !s.isTest, raw := raw, resolved := if raw = 0 then some 0 else none,
        shared := false, capped := false }⟩

section Order

variable {S : Type} [LinearOrder S] (score : Nat → Nat → S)

/-- The resolved count, or the count by name. -/
def Entry.count (e : Entry) : Nat := e.rank.resolved.getD e.rank.raw

def entryScore (e : Entry) : S := score e.rank.lineCount e.count

/-- `score(b).partial_cmp(&score(a)).then_with(|| a.line_start.cmp(&b.line_start))` is not `Greater` -/
def rankLe (a b : Entry) : Bool :=
  decide (entryScore score b < entryScore score a) ||
    (decide (entryScore score a = entryScore score b) && decide (a.symbol.lineStart ≤ b.symbol.lineStart))

end Order

section Resolve

variable (resolve : Symbol → List Reference)

/-- The product callsites of a symbol. -/
def sites (s : Symbol) : List (Text × Nat) :=
  (((resolve s).filter fun r => !r.isTest).map fun r => (r.fromFile, r.line)).dedup

/-- The members of a name's group that count a callsite. -/
def claims (symbols : List Symbol) (name : Text) (site : Text × Nat) : Nat :=
  (symbols.filter fun s => s.name = name).countP fun s => site ∈ sites resolve s

/-- An entry of a group that is resolved. -/
def resolveEntry (symbols : List Symbol) (e : Entry) : Entry :=
  { e with rank :=
    { e.rank with
      resolved := some (sites resolve e.symbol).length
      shared := (sites resolve e.symbol).any fun site => 1 < claims resolve symbols e.symbol.name site } }

end Resolve

structure Progress where
  entries : List Entry
  resolvedSymbols : Nat
  rowsSpent : Nat

section Loop

variable {S : Type} [LinearOrder S] (score : Nat → Nat → S) (resolve : Symbol → List Reference) (b : Budgets)
  (symbols : List Symbol)

/-- An entry that resolution could still move. -/
def pending (e : Entry) : Bool := e.rank.resolved.isNone && !e.rank.capped

end Loop

end TopSymbols
end Graph
end CodeSage
