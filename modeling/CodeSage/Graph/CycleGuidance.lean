import CodeSage.Graph.Scc
import Mathlib.Algebra.Order.Field.Rat
import Mathlib.Data.List.MinMax
import Mathlib.Data.Prod.Lex
import Mathlib.Data.String.Basic

/-!
# CodeSage.Graph.CycleGuidance

The advice of `assess_risk` for a file in an import cycle (`crates/graph/src/git_history/risk.rs`), over the import
pairs of `file_import_pairs` (`crates/graph/src/import_graph.rs`). The pairs that a lazy import closes are left out.

Co-change weights are rational numbers.
-/

namespace CodeSage
namespace Graph
namespace CycleGuidance

open Scc Lib

section Pairs

def isDeclarationFile (path : String) : Bool := [".d.ts", ".d.mts", ".d.cts"].any fun suffix => path.endsWith suffix

/-- A pair and whether only lazy directives join it. -/
abbrev PairSet := AList fun _ : String × String => Bool

def PairSet.add (s : PairSet) (pair : String × String) (lazyOnly : Bool) : PairSet :=
  if pair.1 = pair.2 || isDeclarationFile pair.1 || isDeclarationFile pair.2 then s
  else
    match s.lookup pair with
    | some lazy => s.insert pair (lazy && lazyOnly)
    | none => s.insert pair lazyOnly

/-- The pairs of a list of directives. -/
def pairSet (directives : List ((String × String) × Bool)) : PairSet :=
  directives.foldl (fun s d => PairSet.add s d.1 d.2) ∅

def pairLe (a b : String × String) : Bool := decide (toLex a ≤ toLex b)

/-- The load-time pairs of `into_import_pairs`, sorted. -/
def eagerPairs (s : PairSet) : Edges :=
  (s.keys.filter fun pair => s.lookup pair = some false).mergeSort pairLe

end Pairs

section Cycles

/-- The component of a file, of those with two members at least. -/
def componentIndex (components : List (List String)) (file : String) : Option Nat :=
  ((components.zipIdx.filter fun c => 2 ≤ c.1.length).reverse.find? fun c => c.1.contains file).map Prod.snd

def sameComponent (components : List (List String)) (edge : String × String) : Bool :=
  match componentIndex components edge.1, componentIndex components edge.2 with
  | some a, some b => a = b
  | _, _ => false

structure ImportCycles where
  components : List (List String)
  componentEdges : Edges

def ImportCycles.load (fuel : Nat) (eager : Edges) : Except Stop ImportCycles :=
  match tarjanScc fuel eager with
  | .error stop => .error stop
  | .ok components => .ok ⟨components, eager.filter (sameComponent components)⟩

def ImportCycles.edgesWithin (cycles : ImportCycles) (members : List String) : Edges :=
  cycles.componentEdges.filter fun e => members.contains e.1 && members.contains e.2

/-- The members of the cycle of a file. -/
def cycleEntryForFile (cycles : ImportCycles) (file : String) : Option (List String) :=
  (cycles.components.find? fun component => 2 ≤ component.length && component.contains file).map fun component =>
    component.mergeSort fun a b => decide (a ≤ b)

/-- The other members, as `cycle_membership` gives them. -/
def cycleFiles (members : List String) (file : String) : List String := members.filter fun m => m ≠ file

end Cycles

section Guidance

inductive Guidance where
  | breakPoint (edge : String × String) (weight : ℚ)
  | hubDominated (hubs : List String)
deriving DecidableEq

variable (edges : Edges)

def inDegree (file : String) : Nat := edges.countP fun e => e.2 = file

def maxInDegree : Nat := (edges.map fun e => inDegree edges e.2).foldl max 0

/-- Cut at one edge. -/
def ringLike (size : Nat) : Bool := maxInDegree edges ≤ 2 && edges.length ≤ size + size / 2

/-- What `min_by` compares. -/
def breakKey (weight : String × String → ℚ) (e : String × String) : ℚ ×ₗ (String ×ₗ String) := toLex (weight e, toLex e)

def weakest (weight : String × String → ℚ) : Option (String × String) := edges.argmin (breakKey weight)

def hubLe (a b : String) : Bool :=
  decide (inDegree edges b < inDegree edges a) || (decide (inDegree edges a = inDegree edges b) && decide (a ≤ b))

def hubs : List String := ((edges.map Prod.snd).dedup.mergeSort (hubLe edges)).take 3

/-- The guidance for the files of a cycle and the edges between them. -/
def guidance (size : Nat) (weight : String × String → ℚ) : Option Guidance :=
  if edges.isEmpty then none
  else if ringLike edges size then (weakest edges weight).map fun e => .breakPoint e (weight e)
  else some (.hubDominated (hubs edges))

/-- The guidance for a file whose cycle has these other members. -/
def cycleGuidance (cycles : ImportCycles) (weight : String × String → ℚ) (peers : List String) (file : String) :
    Option Guidance :=
  let scc := peers ++ [file]
  guidance (cycles.edgesWithin scc) scc.length weight

/-- The note that is pushed. -/
def Guidance.note (showWeight : ℚ → String) : Guidance → String
  | .breakPoint (src, dst) weight =>
    if 0 < weight then
      "candidate break point: " ++ src ++ " → " ++ dst ++ " (lowest co-change weight " ++ showWeight weight ++
        " among cycle edges)"
    else
      "candidate break point: " ++ src ++ " → " ++ dst ++ " (these cycle files do not co-change in git history)"
  | .hubDominated hubs =>
    "cycle is hub-dominated (not a simple ring); cutting one edge won't break it — most-depended-on within the " ++
      "cycle (decoupling targets): " ++ String.intercalate ", " hubs

end Guidance

end CycleGuidance
end Graph
end CodeSage
