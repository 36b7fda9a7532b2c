import CodeSage.Lib.Segments

/-!
# CodeSage.Parser.WatchFilter

The walk of discovery and the filter of the watcher (`crates/parser/src/discover.rs`). Paths are segments below the
root. The compiled exclude patterns are any predicate on texts; the verdict of the gitignore rules on one entry is
the same on both sides.

The walk prunes whole directories, the filter judges one path. They agree on a file exactly when no directory above
it is pruned by the excludes, or the file is left out for another reason.
-/

namespace CodeSage
namespace Parser

open Lib

abbrev RelPath := List Text

/-- An entry below the root, as the walk meets it. -/
inductive Entry where
  | file
  | dir (children : List (Text × Entry))

def Entry.isDir : Entry → Bool
  | .file => false
  | .dir _ => true

/-- The compiled patterns, if there are any, and the gitignore rules. -/
structure Rules where
  excludes : Option (Text → Bool)
  gitignore : RelPath → Bool → Bool

/-- `exclude_matches_path` -/
def excludeMatchesPath (isMatch : Text → Bool) (relPath : Text) (isDir : Bool) : Bool :=
  if isMatch relPath then true
  else if !isDir then false
  else if isMatch (relPath ++ ['/']) then true
  else isMatch (relPath ++ ['/', '_'])

/-- `Path::strip_prefix` -/
def stripPrefix (root path : RelPath) : Option RelPath :=
  if root.isPrefixOf path then some (path.drop root.length) else none

/-- A name that starts with a dot. -/
def isHidden (name : Text) : Bool := name.head? == some '.'

namespace Rules

def excluded (rules : Rules) (path : RelPath) (isDir : Bool) : Bool :=
  rules.excludes.any fun isMatch => excludeMatchesPath isMatch (Segments.join path) isDir

/-- Entries that the walk neither reports nor enters: hidden, ignored, or refused by `filter_entry`. -/
def skips (rules : Rules) (path : RelPath) (isDir : Bool) : Bool :=
  path.getLast?.any isHidden || rules.gitignore path isDir || rules.excluded path isDir

mutual

/-- The files below an entry that pass the walk and the check of `discover_files_report_with_context`. -/
def walk (rules : Rules) (path : RelPath) : Entry → List RelPath
  | .file => if rules.excluded path false then [] else [path]
  | .dir children => rules.walkAll path children

def walkAll (rules : Rules) (path : RelPath) : List (Text × Entry) → List RelPath
  | [] => []
  | (name, child) :: rest =>
    (if rules.skips (path ++ [name]) child.isDir then [] else rules.walk (path ++ [name]) child) ++
      rules.walkAll path rest

end

/-- The files that discovery goes on to hash, below the root with these entries. -/
def discover (rules : Rules) (root : List (Text × Entry)) : List RelPath := rules.walkAll [] root

/-- The directories above a path, from below `path`. -/
def ancestorsFrom (path : RelPath) : RelPath → List RelPath
  | [] => []
  | [_] => []
  | name :: rest => (path ++ [name]) :: ancestorsFrom (path ++ [name]) rest

def ancestors (path : RelPath) : List RelPath := ancestorsFrom [] path

/-- `matched_path_or_any_parents` -/
def matchedPathOrAnyParents (rules : Rules) (path : RelPath) (isDir : Bool) : Bool :=
  rules.gitignore path isDir || (ancestors path).any fun dir => rules.gitignore dir true

/-- `WatchFilter::is_ignored` -/
def isIgnored (rules : Rules) (root absPath : RelPath) (isDir : Bool) : Bool :=
  match stripPrefix root absPath with
  | none => false
  | some rel =>
    if rel.isEmpty then false
    else if rel.any isHidden then true
    else if rules.excluded rel isDir then true
    else rules.matchedPathOrAnyParents rel isDir

/-- The file is hidden or below a hidden directory, ignored, or matches an exclude pattern itself. -/
def leftOut (rules : Rules) (path : RelPath) : Bool :=
  path.any isHidden || rules.matchedPathOrAnyParents path false || rules.excluded path false

/-- A directory above the path matches an exclude pattern. -/
def pruned (rules : Rules) (path : RelPath) : Bool := (ancestors path).any fun dir => rules.excluded dir true

end Rules

/-- There is a file at a path below an entry. -/
inductive Entry.HasFile : Entry → RelPath → Prop where
  | file : HasFile .file []
  | dir {children : List (Text × Entry)} {name : Text} {child : Entry} {rest : RelPath}
      (hmem : (name, child) ∈ children) (hrest : child.HasFile rest) : HasFile (.dir children) (name :: rest)

theorem Entry.HasFile.isDir {e : Entry} {path : RelPath} (h : e.HasFile path) : e.isDir = !path.isEmpty := by
  cases h <;> rfl

namespace Rules

variable {rules : Rules}

section Walk

/-- The walk meets no skipped entry on its way from `path` down to a file. -/
def Passes (rules : Rules) (path : RelPath) : RelPath → Prop
  | [] => rules.excluded path false = false
  | name :: rest => rules.skips (path ++ [name]) (!rest.isEmpty) = false ∧ rules.Passes (path ++ [name]) rest

mutual

theorem mem_walk : ∀ (e : Entry) (path p : RelPath),
    p ∈ rules.walk path e ↔ ∃ rest, p = path ++ rest ∧ e.HasFile rest ∧ rules.Passes path rest
  | .file, path, p => by
    rw [walk]
    constructor
    · intro h
      split at h
      · cases h
      · rename_i hpasses
        rw [List.mem_singleton] at h
        exact ⟨[], by rw [h, List.append_nil], .file, Bool.eq_false_iff.mpr hpasses⟩
    · rintro ⟨rest, rfl, hfile, hpasses⟩
      cases hfile
      rw [Passes] at hpasses
      rw [if_neg (Bool.eq_false_iff.mp hpasses), List.append_nil]
      exact List.mem_singleton_self _
  | .dir children, path, p => by
    rw [walk, mem_walkAll children path p]
    constructor
    · rintro ⟨name, child, rest, hmem, rfl, hfile, hpasses⟩
      exact ⟨name :: rest, rfl, .dir hmem hfile, hpasses⟩
    · rintro ⟨rest, rfl, hfile, hpasses⟩
      cases hfile with
      | dir hmem hrest => exact ⟨_, _, _, hmem, rfl, hrest, hpasses⟩

theorem mem_walkAll : ∀ (children : List (Text × Entry)) (path p : RelPath),
    p ∈ rules.walkAll path children ↔ ∃ name child rest, (name, child) ∈ children ∧ p = path ++ name :: rest ∧
      child.HasFile rest ∧ rules.Passes path (name :: rest)
  | [], path, p => by simp [walkAll]
  | (name, child) :: others, path, p => by
    rw [walkAll, List.mem_append, mem_walkAll others path p]
    have hchild := mem_walk child (path ++ [name]) p
    constructor
    · rintro (h | ⟨name', child', rest, hmem, hrest⟩)
      · split at h
        · cases h
        · rename_i hskips
          obtain ⟨rest, rfl, hfile, hpasses⟩ := hchild.mp h
          rw [hfile.isDir] at hskips
          exact ⟨name, child, rest, List.mem_cons_self, by rw [List.append_assoc, List.singleton_append], hfile,
            Bool.eq_false_iff.mpr hskips, hpasses⟩
      · exact ⟨name', child', rest, List.mem_cons_of_mem _ hmem, hrest⟩
    · rintro ⟨name', child', rest, hmem, rfl, hfile, hskips, hpasses⟩
      rcases List.mem_cons.mp hmem with heq | hmem
      · cases heq
        rw [← hfile.isDir] at hskips
        rw [if_neg (Bool.eq_false_iff.mp hskips), hchild]
        exact .inl ⟨rest, by rw [List.append_assoc, List.singleton_append], hfile, hpasses⟩
      · exact .inr ⟨name', child', rest, hmem, rfl, hfile, hskips, hpasses⟩

end

theorem ancestorsFrom_cons (path : RelPath) (name next : Text) (rest : RelPath) :
    ancestorsFrom path (name :: next :: rest) = (path ++ [name]) :: ancestorsFrom (path ++ [name]) (next :: rest) := rfl

theorem passes_iff : ∀ {rest path : RelPath}, rest ≠ [] → (rules.Passes path rest ↔
    (∀ dir ∈ ancestorsFrom path rest, rules.skips dir true = false) ∧ rules.skips (path ++ rest) false = false)
  | [], _, hne => absurd rfl hne
  | [name], path, _ => by
    simp only [Passes, ancestorsFrom, List.isEmpty_nil, Bool.not_true, List.not_mem_nil, false_implies, implies_true,
      true_and, and_iff_left_iff_imp]
    intro hskips
    simp only [skips, Bool.or_eq_false_iff] at hskips
    exact hskips.2
  | name :: next :: rest, path, _ => by
    rw [Passes, passes_iff (List.cons_ne_nil next rest), ancestorsFrom_cons, List.forall_mem_cons, and_assoc,
      List.append_assoc, List.singleton_append]
    rfl

/-- The names on the way are looked at one by one. -/
theorem hidden_iff : ∀ {rest path : RelPath}, rest ≠ [] → ((∀ dir ∈ ancestorsFrom path rest,
    dir.getLast?.any isHidden = false) ∧ (path ++ rest).getLast?.any isHidden = false ↔ rest.any isHidden = false)
  | [], _, hne => absurd rfl hne
  | [name], path, _ => by simp [ancestorsFrom]
  | name :: next :: rest, path, _ => by
    have ih := @hidden_iff _ (path ++ [name]) (List.cons_ne_nil next rest)
    rw [List.append_assoc, List.singleton_append] at ih
    have hany : (name :: next :: rest).any isHidden = (isHidden name || (next :: rest).any isHidden) := List.any_cons
    rw [ancestorsFrom_cons, List.forall_mem_cons, and_assoc, ih, List.getLast?_concat, Option.any_some, hany,
      Bool.or_eq_false_iff]

end Walk

/-- A file is discovered unless it is left out itself or pruned. -/
theorem mem_discover {root : List (Text × Entry)} {path : RelPath} (hfile : (Entry.dir root).HasFile path) :
    path ∈ rules.discover root ↔ rules.leftOut path = false ∧ rules.pruned path = false := by
  have hne : path ≠ [] := by
    cases hfile
    exact List.cons_ne_nil _ _
  have hwalk : path ∈ rules.discover root ↔ rules.Passes [] path := by
    have hmem : path ∈ rules.walk [] (.dir root) ↔ rules.Passes [] path := by
      rw [mem_walk]
      constructor
      · rintro ⟨rest, rfl, -, hpasses⟩
        exact hpasses
      · exact fun hpasses => ⟨path, rfl, hfile, hpasses⟩
    rwa [walk] at hmem
  rw [hwalk, passes_iff hne]
  have hhidden := @hidden_iff _ [] hne
  simp only [skips, leftOut, pruned, matchedPathOrAnyParents, Bool.or_eq_false_iff, List.nil_append, ancestors,
    List.any_eq_false, Bool.not_eq_true] at hhidden ⊢
  rw [← hhidden]
  constructor
  · rintro ⟨hdirs, ⟨hlast, hgit⟩, hexcluded⟩
    exact ⟨⟨⟨⟨fun dir hdir => (hdirs dir hdir).1.1, hlast⟩, hgit, fun dir hdir => (hdirs dir hdir).1.2⟩, hexcluded⟩,
      fun dir hdir => (hdirs dir hdir).2⟩
  · rintro ⟨⟨⟨⟨hnames, hlast⟩, hgit, hgits⟩, hexcluded⟩, hpruned⟩
    exact ⟨fun dir hdir => ⟨⟨hnames dir hdir, hgits dir hdir⟩, hpruned dir hdir⟩, ⟨hlast, hgit⟩, hexcluded⟩

/-- The filter of the watcher sees what a file is left out for itself. -/
theorem isIgnored_file {root path : RelPath} (hne : path ≠ []) :
    rules.isIgnored root (root ++ path) false = rules.leftOut path := by
  have hstrip : stripPrefix root (root ++ path) = some path := by
    rw [stripPrefix, if_pos (List.isPrefixOf_iff_prefix.mpr (List.prefix_append root path)), List.drop_left]
  have hempty : path.isEmpty = false := by
    cases path with
    | nil => exact absurd rfl hne
    | cons _ _ => rfl
  simp only [isIgnored, hstrip, hempty, leftOut, Bool.false_eq_true, if_false]
  cases path.any isHidden <;> cases rules.excluded path false <;> simp

/-- The filter agrees with discovery on a file exactly when the file is not left out by pruning alone. -/
theorem isIgnored_iff_not_discovered {entries : List (Text × Entry)} {path : RelPath}
    (hfile : (Entry.dir entries).HasFile path) (root : RelPath) :
    (rules.isIgnored root (root ++ path) false = true ↔ path ∉ rules.discover entries) ↔
      (rules.pruned path = true → rules.leftOut path = true) := by
  have hne : path ≠ [] := by
    cases hfile
    exact List.cons_ne_nil _ _
  rw [isIgnored_file hne, mem_discover hfile]
  cases rules.leftOut path <;> cases rules.pruned path <;> simp

section Example

/-- The pattern `vendor`. -/
def vendorExcluded : Rules := ⟨some fun relPath => relPath == "vendor".toList, fun _ _ => false⟩

def vendorTree : List (Text × Entry) := [("vendor".toList, .dir [("dep.rs".toList, .file)])]

def depPath : RelPath := ["vendor".toList, "dep.rs".toList]

theorem vendorTree_hasFile : (Entry.dir vendorTree).HasFile depPath :=
  .dir (List.mem_singleton_self _) (.dir (List.mem_singleton_self _) .file)

theorem isIgnored_iff_not_discovered_for_no_patterns :
    let rules : Rules := ⟨none, fun _ _ => false⟩
    rules.isIgnored [] ([] ++ depPath) false = true ↔ depPath ∉ rules.discover vendorTree :=
  (isIgnored_iff_not_discovered vendorTree_hasFile []).mpr (by decide)

/-- A directory that matches a pattern is pruned, and its files pass the filter. -/
theorem pruned_file_not_ignored : (Entry.dir vendorTree).HasFile depPath ∧
    depPath ∉ vendorExcluded.discover vendorTree ∧ vendorExcluded.isIgnored [] ([] ++ depPath) false = false :=
  ⟨vendorTree_hasFile, by decide, by decide⟩

end Example

end Rules

end Parser
end CodeSage
