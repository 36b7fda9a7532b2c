import CodeSage.Graph.ImportPaths
import CodeSage.Lib.Greedy
import CodeSage.Lib.Kahn
import CodeSage.Lib.TextOrder
import Mathlib.Data.List.Sort

/-!
# CodeSage.Graph.RustModules

The roles of the Rust files of an index (`crates/graph/src/rust_modules.rs`): which file is the root of a
target, and which files are modules of it under which paths. `fromImports` is `RustModules::from_imports`.

`files` are the indexed paths that end in `.rs`, `imports` the import and include rows in the order the
database gives them. `hash` is the order in which a hash set of children is gone through. A `HashMap` and a
`HashSet` of which only lookups are made are functions and lists.
-/

namespace CodeSage
namespace Graph
namespace Rust

open Lib Lib.Kahn ImportPaths

structure Module where
  rootFile : Text
  rootDir : Text
  path : List Text
deriving DecidableEq, Repr

structure RustModules where
  modules : Text → Option (List Module) := fun _ => none
  declared : List Text := []
  capped : Bool := false

namespace RustModules

/-- `modules.get(file)`, with no contexts for a file that has no entry -/
def contexts (result : RustModules) (file : Text) : List Module := (result.modules file).getD []

/-- `modules.entry(file).or_default()` -/
def orDefault (result : RustModules) (file : Text) : RustModules :=
  { result with modules := Function.update result.modules file (some (result.contexts file)) }

def push (result : RustModules) (file : Text) (context : Module) : RustModules :=
  { result with modules := Function.update result.modules file (some (result.contexts file ++ [context])) }

@[simp]
theorem contexts_orDefault (result : RustModules) (file f : Text) : (result.orDefault file).contexts f = result.contexts f := by
  by_cases hf : f = file <;> simp [contexts, orDefault, hf, Function.update_of_ne]

theorem contexts_push (result : RustModules) (file f : Text) (context : Module) :
    (result.push file context).contexts f = if f = file then result.contexts f ++ [context] else result.contexts f := by
  by_cases hf : f = file <;> simp [contexts, push, hf, Function.update_of_ne]

theorem contexts_foldl_orDefault (names : List Text) (result : RustModules) (f : Text) :
    (names.foldl orDefault result).contexts f = result.contexts f := by
  induction names generalizing result with
  | nil => rfl
  | cons name names ih => rw [List.foldl_cons, ih, contexts_orDefault]

theorem capped_foldl_orDefault (names : List Text) (result : RustModules) : (names.foldl orDefault result).capped = result.capped := by
  induction names generalizing result with
  | nil => rfl
  | cons name names ih => rw [List.foldl_cons, ih, orDefault]

end RustModules

section Declarations

def moduleFiles (path : Text) : List Text := [path ++ ".rs".toList, path ++ "/mod.rs".toList]

/-- The module names a file declares, as `declarations` holds them. -/
def declarations (files : List Text) (imports : List (Text × Text)) (file : Text) : List Text :=
  imports.filterMap fun row => if row.1 = file ∧ file ∈ files then row.2.dropPrefix? "./".toList else none

/-- The file a module path names, where just one of its two candidates is indexed. -/
def named (files : List Text) (path : Text) : Option Text :=
  match (moduleFiles path).filter (· ∈ files) with
  | [candidate] => some candidate
  | _ => none

/-- What the declarations of a file add to the walk of one of its contexts. -/
def declaredBy (files : List Text) (imports : List (Text × Text)) (file : Text) (context : Module) : List (Text × Module) :=
  (declarations files imports file).filterMap fun declaration =>
    let path := context.path ++ Segments.split declaration
    (named files (context.rootDir ++ Segments.join path)).map fun candidate => (candidate, { context with path := path })

end Declarations

section Roots

/-- The conventional target roots and their directories, in the order of their names. -/
def roots (files : List Text) : List (Text × Text) :=
  (files.filterMap fun file =>
    match rustCrateLayout file with
    | some (directory, true) => some (file, directory)
    | _ => none).insertionSort fun a b => textLe a.1 b.1

structure Family where
  parents : Text → Option Nat
  children : Text → List Text

/-- One declaration of a root: another root it names becomes its child, once. -/
def adopt (files : List Text) (root : Text × Text) (family : Family) (declaration : Text) : Except (Exit RustModules) Family :=
  match named files (root.2 ++ declaration) with
  | some candidate =>
    if candidate ∈ (roots files).map Prod.fst ∧ candidate ∉ family.children root.1 then
      match family.parents candidate with
      | some n => .ok {
          parents := Function.update family.parents candidate (some (n + 1))
          children := Function.update family.children root.1 (family.children root.1 ++ [candidate]) }
      | none => .error .panic
    else .ok family
  | none => .ok family

def families (files : List Text) (imports : List (Text × Text)) : Except (Exit RustModules) Family :=
  (roots files).foldlM (fun family root => (declarations files imports root.1).foldlM (adopt files root) family)
    { parents := fun file => if file ∈ (roots files).map Prod.fst then some 0 else none, children := fun _ => [] }

end Roots

section Walk

def CONTEXTS : Nat := 16384

/-- The result so far and the number of contexts in it. -/
abbrev Progress := RustModules × Nat

/-- The modules of one target, each context once. -/
def walk (files : List Text) (imports : List (Text × Text)) : Nat → List (Text × Module) → Progress → Except (Exit RustModules) Progress
  | _, [], s => .ok s
  | 0, _ :: _, _ => .error .outOfFuel
  | fuel + 1, (file, context) :: pending, (result, total) =>
    let result := result.orDefault file
    if context ∈ result.contexts file then walk files imports fuel pending (result, total)
    else if total + 1 > CONTEXTS then .error (.returned { result with capped := true })
    else
      let added := declaredBy files imports file context
      let result := { result.push file context with declared := result.declared ++ added.map Prod.fst }
      walk files imports fuel (pending ++ added) (result, total + 1)

/-- A target root that comes to the front of the queue. -/
def visit (files : List Text) (imports : List (Text × Text)) (fuel : Nat) (s : Progress) (root : Text) : Except (Exit RustModules) Progress :=
  if root ∈ s.1.declared then .ok s
  else
    match (roots files).lookup root with
    | some directory => walk files imports fuel [(root, { rootFile := root, rootDir := directory, path := [] })] s
    | none => .error .panic

/-- The body of `from_imports`; the limit on the contexts leaves it with a result. -/
def walkRoots (files : List Text) (imports : List (Text × Text)) (hash : Text → List Text → List Text) (fuel : Nat) :
    Except (Exit RustModules) RustModules := do
  let names := (roots files).map Prod.fst
  let family ← families files imports
  let queue := names.filter fun file => family.parents file = some 0
  let s ← pass (fun root => hash root (family.children root)) (visit files imports fuel) fuel queue family.parents ({}, 0)
  .ok (names.foldl RustModules.orDefault s.1)

/-- `RustModules::from_imports` -/
def fromImports (files : List Text) (imports : List (Text × Text)) (hash : Text → List Text → List Text) (fuel : Nat) :
    Except (Exit RustModules) RustModules :=
  match walkRoots files imports hash fuel with
  | .error (.returned result) => .ok result
  | other => other

end Walk

end Rust
end Graph
end CodeSage
