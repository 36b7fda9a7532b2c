import CodeSage.Lib.Segments
import CodeSage.Lib.Split

/-!
# CodeSage.Protocol.Python

Which file a Python import loads (`crates/protocol/src/python.rs`): `load_module`, which walks the packages, and
`module_candidates`, which lists the files that may be meant.

The names of the standard library, `char::is_alphanumeric` and the question whether a directory is imported as a package
are parameters. The set of indexed paths is a list.
-/

namespace CodeSage
namespace Protocol
namespace Python

open Lib Segments

section Spelling

variable (isAlphanumeric : Char → Bool)

/-- The spelling without a final star and the dot before it. -/
def stripStar (module : Text) : Text :=
  if module.getLast? = some '*' then
    let stem := module.dropLast
    if stem.all (· = '.') then stem
    else if stem.getLast? = some '.' then stem.dropLast
    else stem
  else module

def dots (module : Text) : Nat := (module.takeWhile (· = '.')).length

/-- What stands after the dots. -/
def dottedName (module : Text) : Text := module.dropWhile (· = '.')

def validName (name : Text) : Bool :=
  name.isEmpty || (name.splitOn '.').all fun part => !part.isEmpty && part.all fun c => isAlphanumeric c || c = '_'

/-- `Vec::pop`, some times. -/
def popTimes : Nat → List Text → Option (List Text)
  | 0, parts => some parts
  | n + 1, parts => if parts.isEmpty then none else popTimes n parts.dropLast

end Spelling

section Walk

structure PythonModule where
  file : Option Text
  package : Bool
  loaded : List Text
  moduleKeys : List Text
deriving DecidableEq, Repr

def joinBase (base part : Text) : Text := if base.isEmpty then part else base ++ '/' :: part

def initFile (path : Text) : Text := path ++ "/__init__.py".toList

def moduleFile (path : Text) : Text := path ++ ".py".toList

/-- What is found at a path: an initializer, else a module. -/
def regularAt (indexed : List Text) (path : Text) : Option (Text × Text × Bool) :=
  if initFile path ∈ indexed then some (path, initFile path, true)
  else if moduleFile path ∈ indexed then some (path, moduleFile path, false)
  else none

def directoryAt (indexed : List Text) (path : Text) : Bool := indexed.any fun p => (path ++ ['/']).isPrefixOf p

/-- The loop over the bases: the first package or module, or the directories of the name. -/
def searchBases (indexed : List Text) (part : Text) : List Text → List Text → Option (Text × Text × Bool) × List Text
  | [], namespaces => (none, namespaces)
  | base :: bases, namespaces =>
    let path := joinBase base part
    match regularAt indexed path with
    | some found => (some found, namespaces)
    | none => searchBases indexed part bases (if directoryAt indexed path then namespaces ++ [path] else namespaces)

def dotted (parts : List Text) : Text := ['.'].intercalate parts

/-- The loop over the parts, with those done. -/
def walkParts (indexed : List Text) :
    List Text → List Text → List Text → List Text → List Text → Option PythonModule
  | _, _, _, _, [] => none
  | bases, done, loaded, moduleKeys, part :: rest =>
    let moduleKeys' := moduleKeys ++ [dotted (done ++ [part])]
    match searchBases indexed part bases [] with
    | (some (path, file, package), _) =>
      let loaded := loaded ++ [file]
      if rest.isEmpty then some ⟨some file, package, loaded, moduleKeys'⟩
      else if !package then none
      else walkParts indexed [path] (done ++ [part]) loaded moduleKeys' rest
    | (none, namespaces) =>
      if namespaces.isEmpty then none
      else if rest.isEmpty then some ⟨none, true, loaded, moduleKeys'⟩
      else walkParts indexed namespaces (done ++ [part]) loaded moduleKeys' rest

def walkModule (bases parts indexed : List Text) : Option PythonModule := walkParts indexed bases [] [] [] parts

end Walk

section Load

variable (isAlphanumeric : Char → Bool) (stdlib : Text → Bool)

def roots : List Text := [[], "src".toList]

/-- The directory of a script outside any package. -/
def scriptDirectory (importer : Text) (parts indexed : List Text) : Option Text := do
  let (directory, _) ← rsplitOnce '/' importer
  let top ← parts.head?
  if stdlib top || directory ++ "/__init__.py".toList ∈ indexed then none else some directory

/-- The base and the parts of a relative import. -/
def relativeSearch (importer : Text) (dots : Nat) (name : Text) : Option (Text × List Text) := do
  let (directory, _) ← rsplitOnce '/' importer
  let above ← popTimes (dots - 1) (split directory)
  if above.isEmpty then none
  else
    let (root, directory) :=
      if above.head? = some "src".toList then ("src".toList, above.tail) else ([], above)
    some (root, directory ++ (name.splitOn '.').filter fun part => !part.isEmpty)

/-- The import in the directory of the script. -/
def loadFromScript {ε : Type} (importer : Text) (parts indexed : List Text)
    (importedAsPackage : Text → Except ε Bool) : Except ε (Option PythonModule) :=
  match scriptDirectory stdlib importer parts indexed with
  | none => .ok none
  | some directory =>
    match importedAsPackage directory with
    | .error e => .error e
    | .ok true => .ok none
    | .ok false => .ok ((walkModule [directory] parts indexed).filter fun loaded => loaded.file ≠ some importer)

def loadModule {ε : Type} (module importer : Text) (indexed : List Text) (importedAsPackage : Text → Except ε Bool) :
    Except ε (Option PythonModule) :=
  let module := stripStar module
  let name := dottedName module
  if !validName isAlphanumeric name then .ok none
  else if dots module = 0 then
    let parts := name.splitOn '.'
    match walkModule roots parts indexed with
    | some loaded => .ok (some loaded)
    | none => loadFromScript stdlib importer parts indexed importedAsPackage
  else
    match relativeSearch importer (dots module) name with
    | none => .ok none
    | some (root, parts) => .ok (walkModule [root] parts indexed)

def moduleCandidates (module importer : Text) : List Text :=
  let module := stripStar module
  let name := dottedName module
  if !validName isAlphanumeric name then []
  else
    let above :=
      if dots module = 0 then some []
      else
        popTimes (dots module - 1)
          ((split (((rsplitOnce '/' importer).map Prod.fst).getD [])).filter fun part => !part.isEmpty)
    match above with
    | none => []
    | some above =>
      let path := join (above ++ (name.splitOn '.').filter fun part => !part.isEmpty)
      (if path.isEmpty then ["__init__.py".toList] else [initFile path, moduleFile path]) ++
        if dots module = 0 then
          [initFile ("src/".toList ++ path), moduleFile ("src/".toList ++ path)]
        else []

end Load

end Python
end Protocol
end CodeSage
