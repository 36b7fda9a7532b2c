import CodeSage.Protocol.Python

/-!
# CodeSage.Protocol.PythonCorrect

What `load_module` finds, said by Python's finder: at each part of the name the first base with a package or a module, else
the directories of that name. What it finds at the roots or by a relative import is among `module_candidates`.
-/

namespace CodeSage
namespace Protocol
namespace Python

open Lib Segments

section Spec

/-- What a part of the name is. -/
inductive Place where
  | regular (path file : Text) (package : Bool)
  | namespaces (paths : List Text)
deriving DecidableEq, Repr

namespace Place

def file : Place → Option Text
  | regular _ file _ => some file
  | namespaces _ => none

def package : Place → Bool
  | regular _ _ package => package
  | namespaces _ => true

/-- Where the next part is looked for. -/
def bases : Place → List Text
  | regular path _ _ => [path]
  | namespaces paths => paths

end Place

variable (indexed : List Text)

/-- The finder at one part: a package or module of the first base that has one, before any later base and any directory;
else all the directories of the name. -/
inductive Found (bases : List Text) (part : Text) : Place → Prop where
  | regular {before after : List Text} {base path file : Text} {package : Bool} : bases = before ++ base :: after →
      (∀ b ∈ before, regularAt indexed (joinBase b part) = none) →
      regularAt indexed (joinBase base part) = some (path, file, package) → Found bases part (.regular path file package)
  | namespaces : (∀ b ∈ bases, regularAt indexed (joinBase b part) = none) →
      (bases.map (joinBase · part)).filter (directoryAt indexed) ≠ [] →
      Found bases part (.namespaces ((bases.map (joinBase · part)).filter (directoryAt indexed)))

/-- The places of the parts of a name, each found where the one before it says. Only a package has parts after it. -/
inductive Chain : List Text → List Text → List Place → Prop where
  | last {bases : List Text} {part : Text} {place : Place} : Found indexed bases part place → Chain bases [part] [place]
  | more {bases : List Text} {part next : Text} {rest : List Text} {place : Place} {places : List Place} :
      Found indexed bases part place → place.package = true → Chain place.bases (next :: rest) places →
      Chain bases (part :: next :: rest) (place :: places)

/-- The dotted prefixes of a name. -/
def prefixes (done parts : List Text) : List Text :=
  (List.range parts.length).map fun i => dotted (done ++ parts.take (i + 1))

/-- A walk over these bases found the module, and all there is to say of it. -/
structure Walked (bases parts : List Text) (m : PythonModule) : Prop where
  exists_chain : ∃ places, Chain indexed bases parts places ∧
    (∃ last ∈ places.getLast?, m.file = last.file ∧ m.package = last.package) ∧
    m.loaded = places.filterMap Place.file
  moduleKeys : m.moduleKeys = prefixes [] parts

end Spec

section Walk

variable {indexed bases parts : List Text}

theorem searchBases_eq (part : Text) (bases namespaces : List Text) :
    (searchBases indexed part bases namespaces).1 = bases.findSome? (fun b => regularAt indexed (joinBase b part)) ∧
    ((∀ b ∈ bases, regularAt indexed (joinBase b part) = none) →
      (searchBases indexed part bases namespaces).2 =
        namespaces ++ (bases.map (joinBase · part)).filter (directoryAt indexed)) := by
  induction bases generalizing namespaces with
  | nil => simp [searchBases]
  | cons base bases ih =>
    rw [searchBases, List.findSome?_cons]
    rcases hat : regularAt indexed (joinBase base part) with _ | found
    · obtain ⟨h1, h2⟩ := ih (if directoryAt indexed (joinBase base part) then namespaces ++ [joinBase base part]
        else namespaces)
      refine ⟨h1, fun hnone => ?_⟩
      simp only
      rw [h2 fun b hb => hnone b (List.mem_cons_of_mem _ hb), List.map_cons, List.filter_cons]
      split <;> simp
    · refine ⟨rfl, fun hnone => ?_⟩
      rw [hnone base List.mem_cons_self] at hat
      cases hat

/-- The place of a part, if there is one. -/
def placeOf (indexed bases : List Text) (part : Text) : Option Place :=
  match searchBases indexed part bases [] with
  | (some (path, file, package), _) => some (.regular path file package)
  | (none, namespaces) => if namespaces.isEmpty then none else some (.namespaces namespaces)

/-- What the loop over the bases finds is what the finder finds. -/
theorem found_iff {part : Text} {bases : List Text} {place : Place} :
    Found indexed bases part place ↔ placeOf indexed bases part = some place := by
  obtain ⟨hfirst, hrest⟩ := @searchBases_eq indexed part bases []
  rw [placeOf]
  rcases hsearch : searchBases indexed part bases [] with ⟨_ | ⟨path, file, package⟩, namespaces⟩
  · rw [hsearch] at hfirst hrest
    have hnone := List.findSome?_eq_none_iff.mp hfirst.symm
    obtain rfl : namespaces = _ := hrest hnone
    simp only [List.nil_append, Option.ite_none_left_eq_some, List.isEmpty_iff, Option.some.injEq]
    constructor
    · intro h
      cases h with
      | regular hbases _ hat =>
        rw [hnone _ (hbases ▸ List.mem_append_right _ List.mem_cons_self)] at hat
        cases hat
      | namespaces _ hne => exact ⟨hne, rfl⟩
    · rintro ⟨hne, rfl⟩
      exact .namespaces hnone hne
  · rw [hsearch] at hfirst
    obtain ⟨before, base, after, hbases, hat, hbefore⟩ := List.findSome?_eq_some_iff.mp hfirst.symm
    simp only [Option.some.injEq]
    constructor
    · intro h
      cases h with
      | @regular before' after' base' path' file' package' hbases' hbefore' hat' =>
        have hsame : bases.findSome? (fun b => regularAt indexed (joinBase b part)) = some (path', file', package') :=
          List.findSome?_eq_some_iff.mpr ⟨before', base', after', hbases', hat', hbefore'⟩
        rw [← hfirst] at hsame
        cases hsame
        rfl
      | namespaces hnone _ =>
        rw [hnone base (hbases ▸ List.mem_append_right _ List.mem_cons_self)] at hat
        cases hat
    · rintro rfl
      exact .regular hbases hbefore hat

theorem prefixes_cons (done : List Text) (part : Text) (rest : List Text) :
    prefixes done (part :: rest) = dotted (done ++ [part]) :: prefixes (done ++ [part]) rest := by
  rw [prefixes, List.length_cons, List.range_succ_eq_map, List.map_cons, List.map_map, prefixes]
  refine congrArg₂ _ rfl (List.map_congr_left fun i _ => ?_)
  simp

/-- One turn of the loop over the parts. -/
theorem walkParts_cons (bases done loaded keys rest : List Text) (part : Text) :
    walkParts indexed bases done loaded keys (part :: rest) =
      (placeOf indexed bases part).bind fun place =>
        if rest.isEmpty then
          some ⟨place.file, place.package, loaded ++ place.file.toList, keys ++ [dotted (done ++ [part])]⟩
        else if !place.package then none
        else walkParts indexed place.bases (done ++ [part]) (loaded ++ place.file.toList)
          (keys ++ [dotted (done ++ [part])]) rest := by
  rw [walkParts, placeOf]
  rcases searchBases indexed part bases [] with ⟨_ | ⟨path, file, package⟩, namespaces⟩
  · by_cases hempty : namespaces.isEmpty
    · simp [hempty]
    · simp [hempty, Place.file, Place.package, Place.bases]
  · rfl

/-- The loop over the parts goes along a chain of places. -/
theorem walkParts_iff (bases done loaded keys parts : List Text) (m : PythonModule) :
    walkParts indexed bases done loaded keys parts = some m ↔
      ∃ places, Chain indexed bases parts places ∧ ∃ last ∈ places.getLast?,
        m = ⟨last.file, last.package, loaded ++ places.filterMap Place.file, keys ++ prefixes done parts⟩ := by
  induction parts generalizing bases done loaded keys with
  | nil => exact ⟨nofun, fun ⟨places, h, _⟩ => nomatch h⟩
  | cons part rest ih =>
    rw [walkParts_cons, prefixes_cons]
    rcases hplace : placeOf indexed bases part with _ | place
    · refine ⟨nofun, fun ⟨places, h, _⟩ => ?_⟩
      cases h with
      | last hfound => cases hplace.symm.trans (found_iff.mp hfound)
      | more hfound => cases hplace.symm.trans (found_iff.mp hfound)
    · rw [Option.bind_some]
      cases rest with
      | nil =>
        rw [if_pos List.isEmpty_nil, Option.some.injEq]
        constructor
        · rintro rfl
          refine ⟨[place], .last (found_iff.mpr hplace), place, rfl, ?_⟩
          cases hfile : place.file <;> simp [prefixes, hfile]
        · rintro ⟨places, hchain, last, hlast, rfl⟩
          cases hchain with
          | @last _ _ place' hfound =>
            obtain rfl : place = place' := Option.some.inj (hplace.symm.trans (found_iff.mp hfound))
            obtain rfl : place = last := Option.some.inj hlast
            cases hfile : place.file <;> simp [prefixes, hfile]
      | cons next rest =>
        rw [if_neg (by simp)]
        by_cases hpackage : place.package = true
        · rw [if_neg (by simp [hpackage]), ih]
          constructor
          · rintro ⟨places, hchain, last, hlast, rfl⟩
            refine ⟨place :: places, .more (found_iff.mpr hplace) hpackage hchain, last, ?_, ?_⟩
            · rw [List.getLast?_cons, Option.mem_def.mp hlast]
              rfl
            · cases hfile : place.file <;> simp [hfile]
          · rintro ⟨places, hchain, last, hlast, rfl⟩
            cases hchain with
            | @more _ _ _ _ place' places' hfound _ hrest =>
              obtain rfl : place = place' := Option.some.inj (hplace.symm.trans (found_iff.mp hfound))
              refine ⟨places', hrest, last, ?_, ?_⟩
              · rcases places' with _ | ⟨p, ps⟩
                · cases hrest
                · simpa [List.getLast?_cons_cons] using hlast
              · cases hfile : place.file <;> simp [hfile]
        · rw [if_pos (by simpa using hpackage)]
          refine ⟨nofun, fun ⟨places, h, _⟩ => ?_⟩
          cases h with
          | @more _ _ _ _ place' _ hfound hopen =>
            obtain rfl : place = place' := Option.some.inj (hplace.symm.trans (found_iff.mp hfound))
            exact (hpackage hopen).elim

theorem walkModule_iff {bases parts : List Text} {m : PythonModule} :
    walkModule bases parts indexed = some m ↔ Walked indexed bases parts m := by
  rw [walkModule, walkParts_iff]
  constructor
  · rintro ⟨places, hchain, last, hlast, rfl⟩
    exact ⟨⟨places, hchain, ⟨last, hlast, rfl, rfl⟩, rfl⟩, rfl⟩
  · rintro ⟨⟨places, hchain, ⟨last, hlast, hfile, hpackage⟩, hloaded⟩, hkeys⟩
    refine ⟨places, hchain, last, hlast, ?_⟩
    cases m
    simp only at hfile hpackage hloaded hkeys
    rw [hfile, hpackage, hloaded, hkeys, List.nil_append, List.nil_append]

end Walk

section Paths

variable {indexed : List Text}

theorem regularAt_some {path path' file : Text} {package : Bool} (h : regularAt indexed path = some (path', file, package)) :
    path' = path ∧ file ∈ indexed ∧ (file = initFile path ∨ file = moduleFile path) := by
  rw [regularAt] at h
  split at h
  · next hinit =>
    cases h
    exact ⟨rfl, hinit, .inl rfl⟩
  · split at h
    · next hmodule =>
      cases h
      exact ⟨rfl, hmodule, .inr rfl⟩
    · cases h

/-- The part stands under a base. -/
theorem Found.bases_under {bases : List Text} {part : Text} {place : Place} (h : Found indexed bases part place) :
    ∀ b' ∈ place.bases, ∃ b ∈ bases, b' = joinBase b part := by
  intro b' hb'
  cases h with
  | @regular before after base path file package hbases _ hat =>
    obtain rfl := List.mem_singleton.mp hb'
    exact ⟨base, hbases ▸ List.mem_append_right _ List.mem_cons_self, (regularAt_some hat).1⟩
  | namespaces =>
    obtain ⟨b, hb, rfl⟩ := List.mem_map.mp (List.mem_filter.mp hb').1
    exact ⟨b, hb, rfl⟩

/-- The file that is found is an indexed one at the end of the whole name under a base. -/
theorem Chain.file_under {bases parts : List Text} {places : List Place} (h : Chain indexed bases parts places) :
    ∀ last ∈ places.getLast?, ∀ file ∈ last.file, file ∈ indexed ∧ ∃ b ∈ bases,
      file = initFile (parts.foldl joinBase b) ∨ file = moduleFile (parts.foldl joinBase b) := by
  induction h with
  | last hfound =>
    rintro last hlast file hfile
    obtain rfl := Option.some.inj hlast
    cases hfound with
    | @regular before after base path file' package hbases _ hat =>
      obtain rfl : file' = file := Option.some.inj hfile
      obtain ⟨-, hin, hname⟩ := regularAt_some hat
      exact ⟨hin, base, hbases ▸ List.mem_append_right _ List.mem_cons_self, hname⟩
    | namespaces => cases hfile
  | @more bases part next rest place places hfound _ hrest ih =>
    intro last hlast file hfile
    have hlast' : last ∈ places.getLast? := by
      rcases places with _ | ⟨p, ps⟩
      · cases hrest
      · simpa [List.getLast?_cons_cons] using hlast
    obtain ⟨hin, b', hb', hname⟩ := ih last hlast' file hfile
    obtain ⟨b, hb, rfl⟩ := hfound.bases_under b' hb'
    exact ⟨hin, b, hb, hname⟩

theorem Walked.file_under {bases parts : List Text} {m : PythonModule} (h : Walked indexed bases parts m) :
    parts ≠ [] ∧ ∀ file ∈ m.file, file ∈ indexed ∧ ∃ b ∈ bases,
      file = initFile (parts.foldl joinBase b) ∨ file = moduleFile (parts.foldl joinBase b) := by
  obtain ⟨⟨places, hchain, ⟨last, hlast, hfile, -⟩, -⟩, -⟩ := h
  refine ⟨?_, fun file hmem => hchain.file_under last hlast file (hfile ▸ hmem)⟩
  rintro rfl
  cases hchain

theorem foldl_joinBase {base : Text} (hbase : base ≠ []) {parts : List Text} (hne : parts ≠ []) :
    parts.foldl joinBase base = base ++ '/' :: join parts := by
  induction parts using List.reverseRecOn with
  | nil => exact absurd rfl hne
  | append_singleton parts part ih =>
    rw [List.foldl_append, List.foldl_cons, List.foldl_nil]
    by_cases hnil : parts = []
    · rw [hnil, List.foldl_nil, joinBase, if_neg (by simpa using hbase)]
      simp [join]
    · rw [ih hnil, joinBase, if_neg (by simp), join_child hnil, List.append_assoc, List.cons_append]

theorem join_cons {part : Text} {parts : List Text} (hne : parts ≠ []) :
    join (part :: parts) = part ++ '/' :: join parts := by
  rw [join, join, List.intercalate_cons_of_ne_nil hne]
  simp

theorem foldl_joinBase_root {parts : List Text} (hne : parts ≠ []) (hall : ∀ p ∈ parts, p ≠ []) :
    parts.foldl joinBase [] = join parts := by
  rcases parts with _ | ⟨part, parts⟩
  · exact absurd rfl hne
  · rw [List.foldl_cons, joinBase, if_pos List.isEmpty_nil]
    by_cases hnil : parts = []
    · rw [hnil]
      simp [join]
    · rw [foldl_joinBase (hall part List.mem_cons_self) hnil, join_cons hnil]

theorem join_ne_nil {parts : List Text} (hne : parts ≠ []) (hall : ∀ p ∈ parts, p ≠ []) : join parts ≠ [] := by
  rcases parts with _ | ⟨part, parts⟩
  · exact absurd rfl hne
  · by_cases hnil : parts = []
    · rw [hnil]
      simpa [join] using hall part List.mem_cons_self
    · rw [join_cons hnil]
      simp [hall part List.mem_cons_self]

end Paths

section Main

variable {isAlphanumeric : Char → Bool} {stdlib : Text → Bool} {ε : Type} {module importer : Text} {indexed : List Text}

/-- A path without an empty segment. -/
def Segmented (path : Text) : Prop := ∀ seg ∈ split path, seg ≠ []

instance (path : Text) : Decidable (Segmented path) := inferInstanceAs (Decidable (∀ seg ∈ split path, seg ≠ []))

/-- The parts of the name of a module. -/
abbrev nameParts (module : Text) : List Text := (dottedName (stripStar module)).splitOn '.'

/-- The three ways an import is loaded: from the roots, relative to the package of the importer, and from the directory of
the importer as a script. -/
inductive Loads (isAlphanumeric : Char → Bool) (stdlib : Text → Bool) (module importer : Text) (indexed : List Text)
    (importedAsPackage : Text → Except ε Bool) (m : PythonModule) : Prop where
  | roots : dots (stripStar module) = 0 → Walked indexed roots (nameParts module) m →
      (∀ file ∈ m.file, file ∈ indexed ∧ file ∈ moduleCandidates isAlphanumeric module importer) →
      Loads isAlphanumeric stdlib module importer indexed importedAsPackage m
  | relative {root : Text} {parts : List Text} : dots (stripStar module) ≠ 0 →
      relativeSearch importer (dots (stripStar module)) (dottedName (stripStar module)) = some (root, parts) →
      Walked indexed [root] parts m →
      (∀ file ∈ m.file, file ∈ indexed ∧ file ∈ moduleCandidates isAlphanumeric module importer) →
      Loads isAlphanumeric stdlib module importer indexed importedAsPackage m
  | script {directory : Text} : dots (stripStar module) = 0 → (¬∃ m', Walked indexed Python.roots (nameParts module) m') →
      scriptDirectory stdlib importer (nameParts module) indexed = some directory →
      importedAsPackage directory = .ok false → Walked indexed [directory] (nameParts module) m →
      (∀ file ∈ m.file, file ∈ indexed ∧ directory ++ ['/'] <+: file ∧ file ≠ importer) →
      (∃ name, importer = directory ++ '/' :: name ∧ '/' ∉ name) →
      Loads isAlphanumeric stdlib module importer indexed importedAsPackage m

theorem dottedName_of_no_dots (h : dots module = 0) : dottedName module = module := by
  rw [dots, List.length_eq_zero_iff] at h
  have happend := List.takeWhile_append_dropWhile (p := (· = '.')) (l := module)
  rwa [h, List.nil_append] at happend

theorem parts_of_valid {name : Text} (hvalid : validName isAlphanumeric name = true) (hne : name ≠ []) :
    ∀ part ∈ name.splitOn '.', part ≠ [] := by
  intro part hpart
  rw [validName, Bool.or_eq_true, List.isEmpty_iff, List.all_eq_true] at hvalid
  have hat := hvalid.resolve_left hne part hpart
  rw [Bool.and_eq_true, Bool.not_eq_true'] at hat
  exact List.isEmpty_eq_false_iff.mp hat.1

theorem filter_nonempty {parts : List Text} (h : ∀ part ∈ parts, part ≠ []) :
    (parts.filter fun part => !part.isEmpty) = parts :=
  List.filter_eq_self.mpr fun part hpart => by
    rw [Bool.not_eq_true']
    exact List.isEmpty_eq_false_iff.mpr (h part hpart)

/-- What is found at the roots is among the candidates. -/
theorem candidate_of_roots (hspelled : stripStar module ≠ []) (hdots : dots (stripStar module) = 0)
    (hvalid : validName isAlphanumeric (dottedName (stripStar module)) = true) {file : Text}
    (h : ∃ b ∈ roots, file = initFile ((nameParts module).foldl joinBase b) ∨
      file = moduleFile ((nameParts module).foldl joinBase b)) : file ∈ moduleCandidates isAlphanumeric module importer := by
  have hname : dottedName (stripStar module) ≠ [] := by rwa [dottedName_of_no_dots hdots]
  have hparts := parts_of_valid hvalid hname
  have hne : nameParts module ≠ [] := List.splitOn_ne_nil _ _
  have hpath := join_ne_nil hne hparts
  have hsrc : (nameParts module).foldl joinBase "src".toList = "src/".toList ++ join (nameParts module) :=
    foldl_joinBase (by decide) hne
  rw [moduleCandidates, hvalid, hdots]
  simp only [Bool.not_true, Bool.false_eq_true, if_false, if_true, List.nil_append]
  rw [filter_nonempty hparts, if_neg fun hempty => hpath (List.isEmpty_iff.mp hempty)]
  obtain ⟨b, hb, hfile⟩ := h
  rw [roots, List.mem_pair] at hb
  rcases hb with rfl | rfl
  · rw [foldl_joinBase_root hne hparts] at hfile
    exact List.mem_append_left _ (List.mem_pair.mpr hfile)
  · rw [hsrc] at hfile
    exact List.mem_append_right _ (List.mem_pair.mpr hfile)

theorem popTimes_subset {n : Nat} {parts result : List Text} (h : popTimes n parts = some result) : result ⊆ parts := by
  induction n generalizing parts with
  | zero =>
    cases h
    exact List.Subset.refl _
  | succ n ih =>
    rw [popTimes] at h
    split at h
    · cases h
    · exact List.Subset.trans (ih h) (List.dropLast_subset _)

/-- The directory of an importer has no empty segment. -/
theorem Segmented.directory {directory name : Text} (h : Segmented (directory ++ '/' :: name)) :
    (∀ seg ∈ split directory, seg ≠ []) ∧ directory ≠ [] := by
  have hall : ∀ seg ∈ split directory, seg ≠ [] := fun seg hseg =>
    h seg ((split_slash directory name).symm ▸ List.mem_append_left _ hseg)
  refine ⟨hall, ?_⟩
  rintro rfl
  exact hall [] (by decide) rfl

/-- What is found by a relative import is among the candidates. -/
theorem candidate_of_relative (himporter : Segmented importer) (hdots : dots (stripStar module) ≠ 0)
    (hvalid : validName isAlphanumeric (dottedName (stripStar module)) = true) {root : Text} {parts : List Text}
    (hsearch : relativeSearch importer (dots (stripStar module)) (dottedName (stripStar module)) = some (root, parts))
    (hne : parts ≠ []) {file : Text}
    (h : file = initFile (parts.foldl joinBase root) ∨ file = moduleFile (parts.foldl joinBase root)) :
    file ∈ moduleCandidates isAlphanumeric module importer := by
  rw [relativeSearch] at hsearch
  obtain ⟨⟨directory, name⟩, hsplit, hsearch⟩ := Option.bind_eq_some_iff.mp hsearch
  obtain ⟨above, hpop, hsearch⟩ := Option.bind_eq_some_iff.mp hsearch
  have hdirectory : ∀ seg ∈ split directory, seg ≠ [] :=
    ((rsplitOnce_eq_some hsplit).1 ▸ himporter : Segmented (directory ++ '/' :: name)).directory.1
  have habove : ∀ seg ∈ above, seg ≠ [] := fun seg hseg => hdirectory seg (popTimes_subset hpop hseg)
  set named := (dottedName (stripStar module)).splitOn '.' |>.filter fun part => !part.isEmpty with hnamed
  have hnamedNe : ∀ seg ∈ named, seg ≠ [] := by
    intro seg hseg
    rw [hnamed, List.mem_filter, Bool.not_eq_true'] at hseg
    exact List.isEmpty_eq_false_iff.mp hseg.2
  have hall : ∀ seg ∈ above ++ named, seg ≠ [] := fun seg hseg =>
    (List.mem_append.mp hseg).elim (habove seg) (hnamedNe seg)
  -- Both functions go up the same directories, and the walk takes `src` off as its base.
  have hpath : parts.foldl joinBase root = join (above ++ named) ∧ above ++ named ≠ [] := by
    by_cases hempty : above.isEmpty = true
    · rw [if_pos hempty] at hsearch
      cases hsearch
    · rw [if_neg hempty] at hsearch
      by_cases hsrc : above.head? = some "src".toList
      · rw [if_pos hsrc] at hsearch
        obtain ⟨rfl, rfl⟩ := Prod.mk.inj (Option.some.inj hsearch)
        rcases above with _ | ⟨first, above⟩
        · cases hsrc
        · obtain rfl := Option.some.inj hsrc
          refine ⟨?_, List.cons_ne_nil _ _⟩
          rw [foldl_joinBase (habove _ List.mem_cons_self) hne, List.tail_cons, List.cons_append,
            join_cons (show above ++ named ≠ [] from hne)]
      · rw [if_neg hsrc] at hsearch
        obtain ⟨rfl, rfl⟩ := Prod.mk.inj (Option.some.inj hsearch)
        exact ⟨foldl_joinBase_root hne hall, hne⟩
  have hcandidates : moduleCandidates isAlphanumeric module importer =
      [initFile (join (above ++ named)), moduleFile (join (above ++ named))] := by
    rw [moduleCandidates]
    simp only [hvalid, Bool.not_true, Bool.false_eq_true, if_false, hdots, hsplit, Option.map_some, Option.getD_some]
    rw [filter_nonempty hdirectory, hpop]
    simp only
    rw [if_neg fun hempty => join_ne_nil hpath.2 hall (List.isEmpty_iff.mp hempty), List.append_nil]
  rw [hpath.1] at h
  rw [hcandidates]
  exact List.mem_pair.mpr h

/-- What is found in the directory of a script lies under it. -/
theorem loads_script (himporter : Segmented importer) {importedAsPackage : Text → Except ε Bool} {m : PythonModule}
    (hdots : dots (stripStar module) = 0) (hroots : walkModule roots (nameParts module) indexed = none)
    (h : loadFromScript stdlib importer (nameParts module) indexed importedAsPackage = .ok (some m)) :
    Loads isAlphanumeric stdlib module importer indexed importedAsPackage m := by
  have hnone : ¬∃ m', Walked indexed roots (nameParts module) m' := fun ⟨m', hm'⟩ => by
    cases (walkModule_iff.mpr hm').symm.trans hroots
  rw [loadFromScript] at h
  rcases hscript : scriptDirectory stdlib importer (nameParts module) indexed with _ | directory
  · rw [hscript] at h
    cases h
  · rw [hscript] at h
    simp only at h
    rcases hask : importedAsPackage directory with e | _ | _
    · rw [hask] at h
      cases h
    · rw [hask] at h
      obtain ⟨hwalk, hself⟩ := Option.filter_eq_some_iff.mp (Except.ok.inj h)
      have hwalked := walkModule_iff.mp hwalk
      obtain ⟨hne, hfile⟩ := hwalked.file_under
      obtain ⟨⟨directory', name⟩, hsplit, hrest⟩ := Option.bind_eq_some_iff.mp hscript
      obtain ⟨top, -, htop⟩ := Option.bind_eq_some_iff.mp hrest
      obtain rfl : directory' = directory := by
        split at htop
        · cases htop
        · exact Option.some.inj htop
      obtain ⟨himp, hslash⟩ := rsplitOnce_eq_some hsplit
      have hbase : directory' ≠ [] := (himp ▸ himporter : Segmented (directory' ++ '/' :: name)).directory.2
      refine .script hdots hnone hscript hask hwalked (fun file hmem => ?_) ⟨name, himp, hslash⟩
      obtain ⟨hin, b, hb, hname⟩ := hfile file hmem
      rw [List.mem_singleton.mp hb, foldl_joinBase hbase hne] at hname
      refine ⟨hin, ?_, fun hself' => of_decide_eq_true hself (hself' ▸ hmem)⟩
      rcases hname with rfl | rfl
      · exact ⟨join (nameParts module) ++ "/__init__.py".toList, by simp [initFile]⟩
      · exact ⟨join (nameParts module) ++ ".py".toList, by simp [moduleFile]⟩
    · rw [hask] at h
      cases h

/-- Where an import is loaded from, and that what the roots or a relative import give is a candidate. -/
theorem load_module_agrees (hspelled : stripStar module ≠ []) (himporter : Segmented importer)
    {importedAsPackage : Text → Except ε Bool} {m : PythonModule}
    (h : loadModule isAlphanumeric stdlib module importer indexed importedAsPackage = .ok (some m)) :
    Loads isAlphanumeric stdlib module importer indexed importedAsPackage m := by
  rw [loadModule] at h
  by_cases hvalid : validName isAlphanumeric (dottedName (stripStar module)) = true
  · simp only [hvalid, Bool.not_true, Bool.false_eq_true, if_false] at h
    by_cases hdots : dots (stripStar module) = 0
    · rw [if_pos hdots] at h
      rcases hroots : walkModule roots (nameParts module) indexed with _ | loaded
      · rw [hroots] at h
        exact loads_script himporter hdots hroots h
      · rw [hroots] at h
        obtain rfl := Option.some.inj (Except.ok.inj h)
        have hwalked := walkModule_iff.mp hroots
        refine .roots hdots hwalked fun file hmem => ?_
        obtain ⟨hin, hname⟩ := hwalked.file_under.2 file hmem
        exact ⟨hin, candidate_of_roots hspelled hdots hvalid hname⟩
    · rw [if_neg hdots] at h
      rcases hsearch : relativeSearch importer (dots (stripStar module)) (dottedName (stripStar module)) with
        _ | ⟨root, parts⟩
      · rw [hsearch] at h
        cases h
      · rw [hsearch] at h
        have hwalked := walkModule_iff.mp (Except.ok.inj h)
        refine .relative hdots hsearch hwalked fun file hmem => ?_
        obtain ⟨hne, hfile⟩ := hwalked.file_under
        obtain ⟨hin, b, hb, hname⟩ := hfile file hmem
        rw [List.mem_singleton.mp hb] at hname
        exact ⟨hin, candidate_of_relative himporter hdots hvalid hsearch hne hname⟩
  · simp only [hvalid, Bool.not_false, if_true] at h
    cases h

end Main

section Example

/-- An import in a project whose script directories are no packages. -/
def loadPlain (module importer : String) (indexed : List String) : Except Empty (Option PythonModule) :=
  loadModule Char.isAlphanum (fun _ => false) module.toList importer.toList (indexed.map String.toList)
    fun _ => .ok false

/-- The file that an import loads, and whether it is a candidate. -/
def fileAndCandidate (module importer : String) (indexed : List String) : Option (Text × Bool) :=
  match loadPlain module importer indexed with
  | .ok (some m) => m.file.map fun file => (file, (moduleCandidates Char.isAlphanum module.toList importer.toList).contains file)
  | _ => none

/-- The empty spelling names a file `.py` that is no candidate, and so does an importer with an empty segment. -/
theorem empty_names_not_candidates :
    fileAndCandidate "" "a.py" [".py"] = some (".py".toList, false) ∧
    fileAndCandidate ".c" "a//b.py" ["a//b.py", "a//c.py"] = some ("a//c.py".toList, false) := by
  decide

/-- A package under `src` with a module. -/
def packageModule : PythonModule :=
  ⟨some "src/a/b.py".toList, false, ["src/a/__init__.py".toList, "src/a/b.py".toList], ["a".toList, "a.b".toList]⟩

theorem load_module_agrees_for_a_package :
    Loads Char.isAlphanum (fun _ => false) "a.b".toList "x/y.py".toList
      ["src/a/__init__.py".toList, "src/a/b.py".toList] (fun _ => (.ok false : Except Empty Bool)) packageModule :=
  load_module_agrees (by decide) (by decide) (by rfl)

end Example

end Python
end Protocol
end CodeSage
