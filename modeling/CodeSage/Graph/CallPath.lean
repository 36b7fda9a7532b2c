import CodeSage.Protocol.Symbol
import Mathlib.Data.List.AList

/-!
# CodeSage.Graph.CallPath

`trace_call_path` (`crates/graph/src/call_path.rs`): the shortest call chain between two symbols.

Resolving an endpoint and `callees_of` are parameters: what they find in the index, and for
`callees_of` also whether a bound left something out. Work checkpoints are left out. The two loops
take the number of iterations as fuel. The fields `from` and `to` of a request are `fromName` and
`toName`.
-/

namespace CodeSage
namespace Graph
namespace CallPath

open Protocol

structure CallPathRequest where
  fromName : String
  toName : String
  maxDepth : Nat := 6
  deriving DecidableEq, Repr

structure CallPathStep where
  handle : String
  name : String
  qualifiedName : String
  filePath : String
  lineStart : Nat
  callLine : Option Nat
  deriving DecidableEq, Repr

structure CallPathReport where
  found : Bool
  steps : List CallPathStep
  length : Nat
  note : Option String
  bounded : Bool
  countsFloor : Bool
  deriving DecidableEq, Repr

inductive Endpoint where
  | found (symbols : List Symbol)
  | missing (note : String)

/-- What `callees_of` returns for a symbol, and whether it set `hit_bound` or capped its context. -/
structure Callees where
  out : List (Symbol × Nat)
  bounded : Bool := false

def maxVisited : Nat := 4000

def stepOf (s : Symbol) (callLine : Option Nat) : CallPathStep where
  handle := s.handle
  name := s.name
  qualifiedName := s.qualifiedName
  filePath := s.filePath
  lineStart := s.lineStart
  callLine := callLine

def unfound (note : String) (bounded : Bool) : CallPathReport where
  found := false
  steps := []
  length := 0
  note := some note
  bounded := bounded
  countsFloor := true

/-- child ↦ (parent, line in the parent's body where the child is called) -/
abbrev Parents := AList fun _ : SymbolKey => Symbol × Nat

/-- The `loop` of `reconstruct`: the chain from the target back, in the order it is pushed. -/
def walkBack (parents : Parents) (originKeys : List SymbolKey) :
    Nat → Symbol → Option Nat → Option (List (Symbol × Option Nat))
  | 0, _, _ => none
  | fuel + 1, cur, callLine =>
    if keyOf cur ∈ originKeys then some [(cur, callLine)]
    else
      match parents.lookup (keyOf cur) with
      | none => some [(cur, callLine)]
      | some (parent, _) =>
        (walkBack parents originKeys fuel parent ((parents.lookup (keyOf parent)).map Prod.snd)).map
          ((cur, callLine) :: ·)

def reconstruct (fuel : Nat) (target : Symbol) (parents : Parents) (originKeys : List SymbolKey) :
    Option (List CallPathStep) :=
  (walkBack parents originKeys fuel target ((parents.lookup (keyOf target)).map Prod.snd)).map
    fun chain => chain.reverse.map fun c => stepOf c.1 c.2

structure Walk where
  queue : List (Symbol × Nat) := []
  visited : List SymbolKey := []
  parents : Parents := ∅

/-- `for o in &origins`: queue every origin, unless one is a target. -/
def start (targetKeys : List SymbolKey) : List Symbol → Walk → Symbol ⊕ Walk
  | [], w => .inr w
  | o :: origins, w =>
    if keyOf o ∈ targetKeys then .inl o
    else if keyOf o ∈ w.visited then start targetKeys origins w
    else start targetKeys origins
      { w with visited := w.visited ++ [keyOf o], queue := w.queue ++ [(o, 0)] }

/-- `for callee in callees`: the target and the parents, if a callee is one. -/
def examine (targetKeys : List SymbolKey) (sym : Symbol) (depth : Nat) :
    List (Symbol × Nat) → Walk → (Symbol × Parents) ⊕ Walk
  | [], w => .inr w
  | (d, callLine) :: callees, w =>
    if keyOf d ∈ targetKeys then .inl (d, w.parents.insert (keyOf d) (sym, callLine))
    else if keyOf d ∈ w.visited then examine targetKeys sym depth callees w
    else examine targetKeys sym depth callees
      { queue := w.queue ++ [(d, depth + 1)]
        visited := w.visited ++ [keyOf d]
        parents := w.parents.insert (keyOf d) (sym, callLine) }

def unfoundNote (req : CallPathRequest) (hitBound : Bool) : String :=
  if hitBound then
    "no call chain within " ++ toString req.maxDepth ++ " hop" ++
      (if req.maxDepth = 1 then "" else "s") ++
      " via resolved name-based edges (search stopped at a bound, so an omitted path may exist)"
  else
    "'" ++ req.fromName ++ "' does not reach '" ++ req.toName ++
      "' through any resolved name-based call edge in the index; dynamic dispatch, reflection, " ++
      "and callbacks leave no edge, so this is not proof no path exists"

/-- `while let Some((sym, depth)) = queue.pop_front()`, and the report after it. -/
def search (calleesOf : Symbol → Callees) (req : CallPathRequest)
    (targetKeys originKeys : List SymbolKey) : Nat → Walk → Bool → Option CallPathReport
  | 0, _, _ => none
  | fuel + 1, w, hitBound =>
    match w.queue with
    | [] => some (unfound (unfoundNote req hitBound) hitBound)
    | (sym, depth) :: queue =>
      if depth ≥ req.maxDepth then search calleesOf req targetKeys originKeys fuel { w with queue } true
      else if w.visited.length ≥ maxVisited then some (unfound (unfoundNote req true) true)
      else
        let callees := calleesOf sym
        let hitBound := hitBound || callees.bounded
        match examine targetKeys sym depth callees.out { w with queue } with
        | .inl (d, parents) =>
          (reconstruct fuel d parents originKeys).map fun steps =>
            { found := true
              steps := steps
              length := steps.length - 1
              note := if hitBound then some ("A call chain was found, but a resolution bound may " ++
                "have hidden a shorter chain.") else none
              bounded := hitBound
              countsFloor := true }
        | .inr w => search calleesOf req targetKeys originKeys fuel w hitBound

inductive Stop (ε : Type) where
  | refused (e : ε)
  | outOfFuel
  deriving DecidableEq

def traceCallPath {ε : Type} (fuel : Nat) (resolveEndpoint : String → Except ε Endpoint)
    (calleesOf : Symbol → Callees) (req : CallPathRequest) : Except (Stop ε) CallPathReport :=
  match resolveEndpoint req.fromName with
  | .error e => .error (.refused e)
  | .ok (.missing note) => .ok (unfound note false)
  | .ok (.found origins) =>
    match resolveEndpoint req.toName with
    | .error e => .error (.refused e)
    | .ok (.missing note) => .ok (unfound note false)
    | .ok (.found targets) =>
      let targetKeys := targets.map keyOf
      match start targetKeys origins {} with
      | .inl o => .ok
        { found := true
          steps := [stepOf o none]
          length := 0
          note := some "origin and target are the same symbol"
          bounded := false
          countsFloor := true }
      | .inr w =>
        match search calleesOf req targetKeys (origins.map keyOf) fuel w false with
        | some report => .ok report
        | none => .error .outOfFuel

end CallPath
end Graph
end CodeSage
