import Mathlib.Algebra.Order.Ring.Int
import CodeSage.Lib.Vec
import Mathlib.Data.List.AList

/-!
# CodeSage.Graph.Scc

`tarjan_scc` (`crates/graph/src/scc.rs`): the strongly connected components of an edge list, by an
iterative depth-first search. `work` and `stack` have their last element first.

Work checkpoints are left out: no stop is raised. The `while` loop takes a number of iterations as
fuel; running out of it is told apart from a panic, which is a failed index, `expect`, or overflow
of the `i32` counter.
-/

namespace CodeSage
namespace Graph
namespace Scc

open Lib

abbrev Edges := List (String × String)

structure Names where
  idxOf : AList (fun _ : String => Nat) := ∅
  nodes : List String := []

def Names.add (t : Names) (n : String) : Names :=
  if n ∈ t.idxOf then t
  else { idxOf := t.idxOf.insert n t.nodes.length, nodes := t.nodes ++ [n] }

/-- The nodes of an edge list, numbered in the order they occur. -/
def collect (edges : Edges) : Names := edges.foldl (fun t e => (t.add e.1).add e.2) {}

def adjacency (t : Names) (edges : Edges) : Option (Vec (List Nat)) :=
  edges.foldlM (fun adj e => do
    let u ← t.idxOf.lookup e.1
    let v ← t.idxOf.lookup e.2
    let out ← adj.get? u
    adj.set? u (out ++ [v])) (Vec.fill t.nodes.length [])

def unvisited : Int := -1

def i32Max : Int := 2 ^ 31 - 1

/-- `index_counter += 1` -/
def i32Succ (a : Int) : Option Int := if a + 1 ≤ i32Max then some (a + 1) else none

structure Search where
  indexCounter : Int := 0
  index : Vec Int
  lowlink : Vec Int
  onStack : Vec Bool
  stack : List Nat := []
  work : List (Nat × Nat) := []
  components : List (List String) := []

namespace Search

def init (n : Nat) : Search where
  index := Vec.fill n unvisited
  lowlink := Vec.fill n 0
  onStack := Vec.fill n false

/-- Number a node and put it on both stacks. -/
def discover (d : Search) (w : Nat) : Option Search := do
  let index ← d.index.set? w d.indexCounter
  let lowlink ← d.lowlink.set? w d.indexCounter
  let indexCounter ← i32Succ d.indexCounter
  let onStack ← d.onStack.set? w true
  return { d with index, lowlink, indexCounter, stack := w :: d.stack, onStack, work := (w, 0) :: d.work }

/-- The inner `loop`: pop the stack down to `v`. -/
def popComponent (nodes : List String) (v : Nat) :
    List Nat → Vec Bool → List String → Option (List Nat × Vec Bool × List String)
  | [], _, _ => none
  | w :: stack, onStack, component => do
    let onStack ← onStack.set? w false
    let name ← nodes[w]?
    if w = v then return (stack, onStack, component ++ [name])
    else popComponent nodes v stack onStack (component ++ [name])

/-- One iteration along the edge number `i` of `v`. -/
def advance (d : Search) (v i : Nat) (rest : List (Nat × Nat)) (w : Nat) : Option Search := do
  let d := { d with work := (v, i + 1) :: rest }
  let iw ← d.index.get? w
  if iw = unvisited then d.discover w
  else
    let on ← d.onStack.get? w
    if on then
      let lv ← d.lowlink.get? v
      let lowlink ← d.lowlink.set? v (min lv iw)
      return { d with lowlink }
    else return d

/-- The iteration after the last edge of `v`. -/
def leave (nodes : List String) (d : Search) (v : Nat) (rest : List (Nat × Nat)) : Option Search := do
  let lv ← d.lowlink.get? v
  let iv ← d.index.get? v
  let d ←
    if lv = iv then do
      let (stack, onStack, component) ← popComponent nodes v d.stack d.onStack []
      pure { d with stack, onStack, components := d.components ++ [component] }
    else pure d
  let d := { d with work := rest }
  match rest with
  | [] => return d
  | (parent, _) :: _ =>
    let lp ← d.lowlink.get? parent
    let lv ← d.lowlink.get? v
    let lowlink ← d.lowlink.set? parent (min lp lv)
    return { d with lowlink }

def iterate (adj : Vec (List Nat)) (nodes : List String) (d : Search) (v i : Nat)
    (rest : List (Nat × Nat)) : Option Search := do
  let out ← adj.get? v
  match out[i]? with
  | some w => d.advance v i rest w
  | none => d.leave nodes v rest

end Search

inductive Stop where
  | panicked
  | outOfFuel
  deriving DecidableEq, Repr

/-- `while let Some(&(v, i)) = work.last()` -/
def drain (adj : Vec (List Nat)) (nodes : List String) : Nat → Search → Except Stop Search
  | fuel, d =>
    match d.work with
    | [] => .ok d
    | (v, i) :: rest =>
      match fuel with
      | 0 => .error .outOfFuel
      | fuel + 1 =>
        match d.iterate adj nodes v i rest with
        | none => .error .panicked
        | some d => drain adj nodes fuel d

/-- One iteration of `for start in 0..n`. -/
def visit (fuel : Nat) (adj : Vec (List Nat)) (nodes : List String) (d : Search) (start : Nat) :
    Except Stop Search :=
  match d.index.get? start with
  | none => .error .panicked
  | some i =>
    if i ≠ unvisited then .ok d
    else
      match { d with work := [] }.discover start with
      | none => .error .panicked
      | some d => drain adj nodes fuel d

def tarjanScc (fuel : Nat) (edges : Edges) : Except Stop (List (List String)) :=
  let t := collect edges
  match adjacency t edges with
  | none => .error .panicked
  | some adj =>
    ((List.range t.nodes.length).foldlM (visit fuel adj t.nodes) (Search.init t.nodes.length)).map
      Search.components

example : tarjanScc 20 [("a", "b"), ("b", "a"), ("b", "c"), ("c", "c")] = .ok [["c"], ["b", "a"]] := by
  decide

end Scc
end Graph
end CodeSage
