import CodeSage.Graph.ImportPaths

/-!
# CodeSage.Graph.ImportPathsCorrect

The list of candidates and the predicate over one target name the same files. The candidates of a relative
module specifier are the extension and index forms of the joined path, spelled as the index spells paths,
exactly when the specifier does not reach the root and the directory it reaches is not named like a module.
-/

namespace CodeSage
namespace Graph
namespace ImportPaths

open Lib

section Language

/-- The name of a file that ends in `.ext`. -/
theorem fileNameOf_of_suffix {path ext : Text} (hne : ext ≠ []) (hslash : '/' ∉ ext)
    (h : ('.' :: ext) <:+ path) : ∃ stem, fileNameOf path = stem ++ '.' :: ext ∧ '/' ∉ fileNameOf path := by
  obtain ⟨s, rfl⟩ := h
  have hdot : '/' ∉ '.' :: ext := by simpa using hslash
  obtain ⟨dirs, last, -, hsplit⟩ := Segments.split_append hdot s
  have hlen : 1 < (last ++ '.' :: ext).length := by
    have := List.length_pos_of_ne_nil hne
    rw [List.length_append, List.length_cons]
    omega
  have hkeep : [last ++ '.' :: ext].filter (fun c => c ≠ [] && c ≠ ['.']) = [last ++ '.' :: ext] := by
    have hdot : last ++ '.' :: ext ≠ ['.'] := fun heq => by simp [heq] at hlen
    simp [hdot]
  have hname : fileNameOf (s ++ '.' :: ext) = last ++ '.' :: ext := by
    rw [fileNameOf, hsplit, List.filter_append, hkeep, List.getLast?_concat]
    rfl
  refine ⟨last, hname, ?_⟩
  rw [hname]
  exact Segments.slash_not_mem_split _ _ (hsplit ▸ List.mem_append_right _ List.mem_cons_self)

/-- The extension of a path that ends in `.ext`, unless the whole name is `.ext`. -/
theorem extension_of_suffix {path ext : Text} (hne : ext ≠ []) (hslash : '/' ∉ ext) (hdot : '.' ∉ ext)
    (h : ('.' :: ext) <:+ path) :
    Parser.extension (String.ofList (fileNameOf path)) = none ∨
      Parser.extension (String.ofList (fileNameOf path)) = some (String.ofList ext) := by
  obtain ⟨stem, hname, hnot⟩ := fileNameOf_of_suffix hne hslash h
  have hfile : Parser.fileName (String.ofList (fileNameOf path)) = fileNameOf path := by
    rw [Parser.fileName, String.toList_ofList, rsplitOnce_eq_none hnot]
    rfl
  rw [Parser.extension, hfile, hname, rsplitOnce_append stem hdot]
  split
  · exact Or.inl rfl
  · by_cases hstem : stem.isEmpty
    · exact Or.inl (if_pos hstem)
    · exact Or.inr (if_neg hstem)

/-- The languages whose imports name files by path. -/
def NamesFiles (importerFile : Text) : Prop :=
  languageOf importerFile = some .javaScript ∨ languageOf importerFile = some .typeScript ∨
    languageOf importerFile = some .c ∨ languageOf importerFile = some .cpp

instance (importerFile : Text) : Decidable (NamesFiles importerFile) :=
  inferInstanceAs (Decidable (_ ∨ _ ∨ _ ∨ _))

theorem not_namesFiles_of_suffix {path : Text} (ext : Text) (hne : ext ≠ []) (hslash : '/' ∉ ext) (hdot : '.' ∉ ext)
    (h : ('.' :: ext) <:+ path) {l : Parser.Language}
    (hlang : Parser.detectLanguage (String.ofList ('x' :: '.' :: ext)) = some l)
    (hl : l = .python ∨ l = .rust) : ¬NamesFiles path := by
  have hsingle : Parser.extension (String.ofList ('x' :: '.' :: ext)) = some (String.ofList ext) := by
    have hx : '/' ∉ 'x' :: '.' :: ext := by simpa using hslash
    have hsplit : rsplitOnce '.' ('x' :: '.' :: ext) = some (['x'], ext) := rsplitOnce_append ['x'] hdot
    have hfile : Parser.fileName (String.ofList ('x' :: '.' :: ext)) = 'x' :: '.' :: ext := by
      rw [Parser.fileName, String.toList_ofList, rsplitOnce_eq_none hx]
      rfl
    rw [Parser.extension, hfile, hsplit]
    rfl
  rw [Parser.detectLanguage, Parser.detectLanguageWithDialect, hsingle] at hlang
  have hpath : languageOf path = none ∨ languageOf path = some l := by
    rw [languageOf, Parser.detectLanguage, Parser.detectLanguageWithDialect]
    rcases extension_of_suffix hne hslash hdot h with hext | hext
    · exact Or.inl (by rw [hext]; rfl)
    · exact Or.inr (by rw [hext]; exact hlang)
  have honly : ∀ k, languageOf path = some k → k = l := by
    intro k hk
    rcases hpath with hnone | hsome
    · rw [hnone] at hk
      cases hk
    · exact Option.some.inj (hk.symm.trans hsome)
  have hother : ∀ k ∈ [Parser.Language.javaScript, .typeScript, .c, .cpp], k ≠ l := by
    rcases hl with rfl | rfl <;> decide
  rintro (hjs | hts | hc | hcpp)
  · exact hother _ (by simp) (honly _ hjs)
  · exact hother _ (by simp) (honly _ hts)
  · exact hother _ (by simp) (honly _ hc)
  · exact hother _ (by simp) (honly _ hcpp)

theorem not_python {path : Text} (h : NamesFiles path) : isPythonPath path = false := by
  rw [isPythonPath, Bool.or_eq_false_iff]
  refine ⟨Bool.eq_false_iff.mpr fun hpy => ?_, Bool.eq_false_iff.mpr fun hpyi => ?_⟩
  · exact not_namesFiles_of_suffix "py".toList (by decide) (by decide) (by decide)
      (List.isSuffixOf_iff_suffix.mp hpy) (l := .python) (by decide) (Or.inl rfl) h
  · exact not_namesFiles_of_suffix "pyi".toList (by decide) (by decide) (by decide)
      (List.isSuffixOf_iff_suffix.mp hpyi) (l := .python) (by decide) (Or.inl rfl) h

theorem not_rust {path : Text} (h : NamesFiles path) : ".rs".toList.isSuffixOf path = false := by
  refine Bool.eq_false_iff.mpr fun hrs => ?_
  exact not_namesFiles_of_suffix "rs".toList (by decide) (by decide) (by decide)
    (List.isSuffixOf_iff_suffix.mp hrs) (l := .rust) (by decide) (Or.inr rfl) h

theorem importerDialect_ne_other {path : Text} (h : NamesFiles path) : importerDialect path ≠ .other := by
  rcases h with h | h | h | h <;> simp [importerDialect, h]

end Language

/-- The two matchers agree. -/
theorem mem_pathImportCandidates_iff (alnum : Char → Bool) (importRef importerFile targetFile : Text)
    (hlang : NamesFiles importerFile) (hsep : ¬"::".toList <:+: importRef) :
    targetFile ∈ pathImportCandidates importRef importerFile ↔
      importRefTargetsFile alnum importRef importerFile targetFile = true := by
  have hsep' : hasPathSep importRef = false := by simpa [hasPathSep] using hsep
  have hother := importerDialect_ne_other hlang
  have hmem : ∀ l : List Text, targetFile ∈ l ↔ l.any (· == targetFile) = true := by simp
  rw [importRefTargetsFile, not_python hlang, Bool.false_and, if_neg (by simp)]
  by_cases hrel : isRelative importRef = true
  · rw [if_pos hrel, importPathTargetsFile, not_rust hlang, Bool.false_and, if_neg (by simp), if_pos hrel,
      pathImportCandidates, if_pos ⟨hother, hrel⟩]
    cases lexicalJoin (dirOf importerFile) importRef with
    | none => simp
    | some resolved => exact hmem _
  · rw [if_neg hrel, if_neg (by simp [hsep']), pathImportCandidates, if_neg fun h => hrel h.2]
    by_cases hc : importerDialect importerFile = .cFamily
    · rw [if_pos ⟨hc, hsep'⟩, hmem]
      simp [hc]
    · rw [if_neg fun h => hc h.1]
      simp [hc]

theorem mem_pathImportCandidates_iff_for_a_header :
    NamesFiles "src/main.c".toList ∧ ¬"::".toList <:+: "sub/y.h".toList ∧
      ("src/sub/y.h".toList ∈ pathImportCandidates "sub/y.h".toList "src/main.c".toList ↔
        importRefTargetsFile Char.isAlphanum "sub/y.h".toList "src/main.c".toList "src/sub/y.h".toList = true) :=
  ⟨by decide, by decide, mem_pathImportCandidates_iff Char.isAlphanum "sub/y.h".toList "src/main.c".toList
    "src/sub/y.h".toList (by decide) (by decide)⟩

section Relative

/-- The specifier starts with a dot segment. -/
def Relative (spec : Text) : Prop :=
  (Segments.split spec).head? = some ['.'] ∨ (Segments.split spec).head? = some ['.', '.']

/-- The path of a text inside the importer's directory. -/
def inDirOf (importerFile more : Text) : Text := dirOf importerFile ++ '/' :: more

/-- The last segment has no complete module extension. -/
def Extendable (path : Text) : Prop := ∀ stem ext, extensionSplit path = some (stem, ext) → isCompleteModuleExtension ext = false

/-- Every extension and index form of the specifier is listed, and every listed path is spelled as the index
spells paths. -/
structure FormsListed (spec importerFile : Text) : Prop where
  index : ∀ ext ∈ extensionOrder (importerDialect importerFile),
    ∃ p, Segments.normalize (inDirOf importerFile (spec ++ "/index.".toList ++ ext)) = some p ∧
      p ∈ pathImportCandidates spec importerFile
  extended : (∀ dirs last, Segments.split spec = dirs ++ [last] → Segments.Plain last) →
    ∀ ext ∈ extensionOrder (importerDialect importerFile),
      ∃ p, Segments.normalize (inDirOf importerFile (spec ++ '.' :: ext)) = some p ∧
        p ∈ pathImportCandidates spec importerFile
  normal : ∀ p ∈ pathImportCandidates spec importerFile, Segments.NormalPath p

/-- The segments of the importer's directory. -/
def dirParts (importerFile : Text) : List Text :=
  if (dirOf importerFile).isEmpty then [] else Segments.split (dirOf importerFile)

theorem dirParts_names {importerFile : Text} (h : Segments.NormalPath importerFile) :
    Segments.Names (dirParts importerFile) := by
  rw [dirParts]
  split
  · exact fun _ hseg => absurd hseg List.not_mem_nil
  · rename_i hne
    rw [dirOf] at hne ⊢
    cases hr : rsplitOnce '/' importerFile with
    | none =>
      rw [hr] at hne
      exact absurd rfl hne
    | some r =>
      obtain ⟨hsplit, -⟩ := rsplitOnce_eq_some (a := r.1) (b := r.2) hr
      intro seg hseg
      have hmem : seg ∈ Segments.split importerFile := by
        rw [hsplit, Segments.split_slash]
        exact List.mem_append_left _ hseg
      exact ⟨h seg hmem, Segments.slash_not_mem_split _ seg hmem⟩

/-- The walk along a text from the importer's directory. -/
theorem normalize_inDirOf {importerFile : Text} (h : Segments.NormalPath importerFile) (more : Text) :
    Segments.normalize (inDirOf importerFile more) =
      (Segments.walk (dirParts importerFile) (Segments.split more)).map Segments.join := by
  have hnames := dirParts_names h
  rw [Segments.normalize, inDirOf, Segments.split_slash, Segments.walk_append]
  rw [dirParts] at hnames ⊢
  split at hnames
  · rename_i hnil
    rw [List.isEmpty_iff.mp hnil, if_pos List.isEmpty_nil, Segments.split, List.splitOn_nil]
    rfl
  · rename_i hne
    rw [if_neg hne, Segments.walk_plain fun s hs => (hnames s hs).1, List.nil_append, Option.bind_some]

theorem lexicalJoin_eq {importerFile : Text} (h : Segments.NormalPath importerFile) (spec : Text) :
    lexicalJoin (dirOf importerFile) spec = Segments.normalize (inDirOf importerFile spec) := by
  rw [normalize_inDirOf h]
  rfl

theorem extensionOrder_names (d : ImporterDialect) : ∀ ext ∈ extensionOrder d, '/' ∉ ext ∧ ext ≠ [] := by
  cases d <;> decide

/-- A name with an extension put to it. -/
theorem plain_extended {last ext : Text} (hlast : last ≠ []) (hext : ext ≠ []) : Segments.Plain (last ++ '.' :: ext) := by
  have hlen : 3 ≤ (last ++ '.' :: ext).length := by
    have := List.length_pos_of_ne_nil hlast
    have := List.length_pos_of_ne_nil hext
    rw [List.length_append, List.length_cons]
    omega
  refine ⟨fun h => ?_, fun h => ?_, fun h => ?_⟩
  all_goals
    rw [h] at hlen
    simp at hlen

theorem index_eq (ext : Text) : "/index.".toList ++ ext = '/' :: ("index".toList ++ '.' :: ext) := by
  have : "/index.".toList = '/' :: ("index".toList ++ ['.']) := by decide
  rw [this]
  simp

/-- The last segment of a joined path decides about its extension. -/
theorem extensionSplit_join {dirs : List Text} {last : Text} (h : '/' ∉ last) :
    ∃ pre, (extensionSplit (Segments.join (dirs ++ [last]))) = (rsplitOnce '.' last).map fun r => (pre ++ r.1, r.2) := by
  by_cases hdirs : dirs = []
  · refine ⟨[], ?_⟩
    rw [hdirs, extensionSplit]
    simp [Segments.join, rsplitOnce_eq_none h]
  · rw [Segments.join_child hdirs, extensionSplit, rsplitOnce_append _ h]
    exact ⟨_, rfl⟩

theorem length_emittedExtensionSources (ext : Text) : ∀ source ∈ emittedExtensionSources ext, source.length ≤ 4 := by
  intro source hsource
  rw [emittedExtensionSources] at hsource
  repeat' split at hsource
  all_goals
    revert hsource
    revert source
    decide

variable {spec importerFile : Text}

/-- A name put below a walk's end. -/
theorem normalize_child (himporter : Segments.NormalPath importerFile) {r : List Text}
    (hwalk : Segments.walk (dirParts importerFile) (Segments.split spec) = some r) {name : Text}
    (hplain : Segments.Plain name) (hslash : '/' ∉ name) :
    Segments.normalize (inDirOf importerFile (spec ++ '/' :: name)) = some (Segments.join (r ++ [name])) := by
  have hname : Segments.split name = [name] := List.splitOn_eq_singleton hslash
  rw [normalize_inDirOf himporter, Segments.split_slash, Segments.walk_append, hwalk, Option.bind_some, hname,
    Segments.walk_cons, Segments.push_plain hplain]
  rfl

/-- More text put to the last name of a walk. -/
theorem normalize_extended (himporter : Segments.NormalPath importerFile) {r : List Text}
    (hwalk : Segments.walk (dirParts importerFile) (Segments.split spec) = some r) {ext : Text} (hext : '/' ∉ ext)
    (hne : ext ≠ []) (hlast : ∀ dirs last, Segments.split spec = dirs ++ [last] → Segments.Plain last) :
    Segments.normalize (inDirOf importerFile (spec ++ '.' :: ext)) = some (Segments.join r ++ '.' :: ext) := by
  obtain ⟨dirs, last, hsplit, hmore⟩ := Segments.split_append (t := '.' :: ext) (by simpa using hext) spec
  have hplain := hlast dirs last hsplit
  rw [hsplit, Segments.walk_append] at hwalk
  obtain ⟨q, hq, hpush⟩ := Option.bind_eq_some_iff.mp hwalk
  rw [Segments.walk_cons, Segments.push_plain hplain, Option.bind_some] at hpush
  cases hpush
  rw [normalize_inDirOf himporter, hmore, Segments.walk_append, hq, Option.bind_some, Segments.walk_cons,
    Segments.push_plain (plain_extended hplain.1 hne), Segments.join_concat]
  rfl

theorem index_plain {ext : Text} (hne : ext ≠ []) (hslash : '/' ∉ ext) :
    Segments.Plain ("index".toList ++ '.' :: ext) ∧ '/' ∉ "index".toList ++ '.' :: ext := by
  refine ⟨plain_extended (by decide) hne, fun hmem => ?_⟩
  rcases List.mem_append.mp hmem with hmem | hmem
  · exact absurd hmem (by decide)
  · rcases List.mem_cons.mp hmem with hmem | hmem
    · exact absurd hmem (by decide)
    · exact hslash hmem

theorem relativeFileCandidates_open {resolved : Text} {d : ImporterDialect} (hd : d = .javaScript ∨ d = .typeScript)
    (hopen : Extendable resolved) : relativeFileCandidates resolved d = openCandidates resolved (extensionOrder d) := by
  cases hsplit : extensionSplit resolved with
  | none => rcases hd with rfl | rfl <;> simp [relativeFileCandidates, hsplit]
  | some r => rcases hd with rfl | rfl <;> simp [relativeFileCandidates, hsplit, hopen r.1 r.2 hsplit]

/-- A path with a complete extension is listed with other extensions at most. -/
theorem length_completeCandidates {resolved stem ext p : Text} {d : ImporterDialect}
    (hsplit : extensionSplit resolved = some (stem, ext)) (hp : p ∈ completeCandidates resolved stem ext d) :
    p.length ≤ resolved.length + 5 := by
  have hstem : stem.length ≤ resolved.length := by
    obtain ⟨r, hr, heq⟩ := Option.map_eq_some_iff.mp hsplit
    obtain ⟨hsegment, -⟩ := rsplitOnce_eq_some (a := r.1) (b := r.2) hr
    have hlen := congrArg List.length hsegment
    rw [List.length_append, List.length_cons] at hlen
    refine (congrArg List.length (congrArg Prod.fst heq)).symm.trans_le ?_
    rw [List.length_append, List.length_take]
    have hle : (((rsplitOnce '/' resolved).map Prod.snd).getD resolved).length ≤ resolved.length := by
      cases hslash : rsplitOnce '/' resolved with
      | none => exact Nat.le_refl _
      | some q =>
        obtain ⟨hq, -⟩ := rsplitOnce_eq_some (a := q.1) (b := q.2) hslash
        have hlen := congrArg List.length hq
        rw [List.length_append, List.length_cons] at hlen
        simp only [Option.map_some, Option.getD_some]
        omega
    omega
  have hcases : p = resolved ∨ ∃ source ∈ emittedExtensionSources ext, p = stem ++ ['.'] ++ source := by
    rw [completeCandidates] at hp
    split at hp
    · rcases List.mem_append.mp hp with hp | hp
      · obtain ⟨source, hsource, rfl⟩ := List.mem_map.mp hp
        exact Or.inr ⟨source, hsource, rfl⟩
      · exact Or.inl (List.mem_singleton.mp hp)
    · rcases List.mem_cons.mp hp with hp | hp
      · exact Or.inl hp
      · obtain ⟨source, hsource, rfl⟩ := List.mem_map.mp hp
        exact Or.inr ⟨source, hsource, rfl⟩
  rcases hcases with rfl | ⟨source, hsource, rfl⟩
  · omega
  · have := length_emittedExtensionSources ext source hsource
    rw [List.length_append, List.length_append, List.length_singleton]
    omega

/-- The forms of a specifier that reaches a directory or a file below the root, not named like a module. -/
theorem formsListed_of_extendable (himporter : Segments.NormalPath importerFile)
    (hd : importerDialect importerFile = .javaScript ∨ importerDialect importerFile = .typeScript)
    (hrel : isRelative spec = true) {r : List Text}
    (hwalk : Segments.walk (dirParts importerFile) (Segments.split spec) = some r) (hne : r ≠ [])
    (hopen : Extendable (Segments.join r)) : FormsListed spec importerFile := by
  have hother : importerDialect importerFile ≠ .other := by rcases hd with h | h <;> simp [h]
  have hnames := Segments.walk_names (dirParts_names himporter) (Segments.slash_not_mem_split spec) hwalk
  have hcandidates : pathImportCandidates spec importerFile =
      openCandidates (Segments.join r) (extensionOrder (importerDialect importerFile)) := by
    rw [pathImportCandidates, if_pos ⟨hother, hrel⟩, lexicalJoin_eq himporter, normalize_inDirOf himporter, hwalk,
      Option.map_some, Option.map_some, Option.getD_some, relativeFileCandidates_open hd hopen]
  obtain ⟨dirs, last, rfl⟩ := (List.eq_nil_or_concat' r).resolve_left hne
  have hlastname := hnames last (List.mem_append_right _ List.mem_cons_self)
  refine ⟨fun ext hext => ?_, fun hlast ext hext => ?_, fun p hp => ?_⟩
  · obtain ⟨hslash, hext'⟩ := extensionOrder_names _ ext hext
    obtain ⟨hplain, hslash'⟩ := index_plain hext' hslash
    refine ⟨Segments.join (dirs ++ [last] ++ ["index".toList ++ '.' :: ext]), ?_, ?_⟩
    · rw [List.append_assoc, index_eq]
      exact normalize_child himporter hwalk hplain hslash'
    · rw [hcandidates, Segments.join_child hne, ← index_eq, ← List.append_assoc]
      exact List.mem_append_right _ (List.mem_map_of_mem hext)
  · obtain ⟨hslash, hext'⟩ := extensionOrder_names _ ext hext
    refine ⟨_, normalize_extended himporter hwalk hslash hext' hlast, ?_⟩
    rw [hcandidates]
    refine List.mem_append_left _ (List.mem_cons_of_mem _ (List.mem_map.mpr ⟨ext, hext, ?_⟩))
    rw [List.append_assoc, List.singleton_append]
  · rw [hcandidates] at hp
    rcases List.mem_append.mp hp with hp | hp
    · rcases List.mem_cons.mp hp with rfl | hp
      · exact Segments.normalPath_join hnames hne
      · obtain ⟨ext, hext, rfl⟩ := List.mem_map.mp hp
        obtain ⟨hslash, hext'⟩ := extensionOrder_names _ ext hext
        rw [List.append_assoc, Segments.join_concat]
        refine Segments.normalPath_join (fun seg hseg => ?_) (by simp)
        rcases List.mem_append.mp hseg with hseg | hseg
        · exact hnames seg (List.mem_append_left _ hseg)
        · rw [List.mem_singleton.mp hseg]
          exact ⟨plain_extended hlastname.1.1 hext', by simp [hlastname.2, hslash]⟩
    · obtain ⟨ext, hext, rfl⟩ := List.mem_map.mp hp
      obtain ⟨hslash, hext'⟩ := extensionOrder_names _ ext hext
      rw [List.append_assoc, index_eq, ← Segments.join_child hne]
      refine Segments.normalPath_join (fun seg hseg => ?_) (by simp)
      rcases List.mem_append.mp hseg with hseg | hseg
      · exact hnames seg hseg
      · rw [List.mem_singleton.mp hseg]
        exact index_plain hext' hslash

theorem extensionOrder_ts {d : ImporterDialect} (hd : d = .javaScript ∨ d = .typeScript) :
    "ts".toList ∈ extensionOrder d := by
  rcases hd with rfl | rfl <;> decide

/-- The joined path is not the root, and its last segment has no complete module extension. -/
def ReachesOpen (spec importerFile : Text) : Prop :=
  ∃ p, Segments.normalize (inDirOf importerFile spec) = some p ∧ p ≠ [] ∧ Extendable p

/-- The exact condition for a relative specifier that stays inside the repository and whose own last segment
has no complete module extension. -/
theorem formsListed_iff (himporter : Segments.NormalPath importerFile)
    (hd : importerDialect importerFile = .javaScript ∨ importerDialect importerFile = .typeScript)
    (_hrel : Relative spec) (hclimb : (Segments.normalize (inDirOf importerFile spec)).isSome = true)
    (_hlast : Extendable spec) :
    FormsListed spec importerFile ↔ isRelative spec = true ∧ ReachesOpen spec importerFile := by
  rw [normalize_inDirOf himporter, Option.isSome_map] at hclimb
  obtain ⟨r, hwalk⟩ := Option.isSome_iff_exists.mp hclimb
  have hnormal : Segments.normalize (inDirOf importerFile spec) = some (Segments.join r) := by
    rw [normalize_inDirOf himporter, hwalk]
    rfl
  have hnames := Segments.walk_names (dirParts_names himporter) (Segments.slash_not_mem_split spec) hwalk
  have hother : importerDialect importerFile ≠ .other := by rcases hd with h | h <;> simp [h]
  have hc : importerDialect importerFile ≠ .cFamily := by rcases hd with h | h <;> simp [h]
  have hts := extensionOrder_ts hd
  constructor
  · intro h
    obtain ⟨p, hp, hmem⟩ := h.index _ hts
    have hrel : isRelative spec = true := by
      by_contra hnot
      rw [pathImportCandidates, if_neg fun h => hnot h.2, if_neg fun h => hc h.1] at hmem
      exact List.not_mem_nil hmem
    have hcandidates : pathImportCandidates spec importerFile =
        relativeFileCandidates (Segments.join r) (importerDialect importerFile) := by
      rw [pathImportCandidates, if_pos ⟨hother, hrel⟩, lexicalJoin_eq himporter, hnormal]
      rfl
    refine ⟨hrel, Segments.join r, hnormal, fun hroot => ?_, fun stem ext hsplit => ?_⟩
    · have hopen : Extendable (Segments.join r) := by
        rw [hroot]
        intro stem ext hsplit
        cases hsplit
      have hempty : Segments.NormalPath [] := by
        refine h.normal [] ?_
        rw [hcandidates, relativeFileCandidates_open hd hopen, hroot]
        exact List.mem_append_left _ List.mem_cons_self
      exact absurd hempty (by decide)
    · by_contra hcomplete
      have hcomplete : isCompleteModuleExtension ext = true := by simpa using hcomplete
      have hlist : relativeFileCandidates (Segments.join r) (importerDialect importerFile) =
          completeCandidates (Segments.join r) stem ext (importerDialect importerFile) := by
        rcases hd with h | h <;> simp [h, relativeFileCandidates, hsplit, hcomplete]
      have hr : r ≠ [] := by
        rintro rfl
        cases hsplit
      obtain ⟨hplain, hslash⟩ := index_plain (by decide : "ts".toList ≠ []) (by decide)
      rw [List.append_assoc, index_eq, normalize_child himporter hwalk hplain hslash, Segments.join_child hr] at hp
      rw [hcandidates, hlist] at hmem
      have hlen := length_completeCandidates hsplit hmem
      rw [← Option.some.inj hp, List.length_append] at hlen
      have : ('/' :: ("index".toList ++ '.' :: "ts".toList)).length = 9 := by decide
      omega
  · rintro ⟨hrel, p, hp, hne, hopen⟩
    rw [hnormal] at hp
    cases hp
    refine formsListed_of_extendable himporter hd hrel hwalk ?_ hopen
    rintro rfl
    exact hne rfl

theorem extendable_of_none {path : Text} (h : extensionSplit path = none) : Extendable path := by
  intro stem ext hsplit
  rw [h] at hsplit
  cases hsplit

theorem formsListed_iff_for_a_sibling :
    FormsListed "./b".toList "lib/a.ts".toList ↔
      isRelative "./b".toList = true ∧ ReachesOpen "./b".toList "lib/a.ts".toList :=
  formsListed_iff (by decide) (Or.inr (by decide)) (Or.inl (by decide)) (by decide)
    (extendable_of_none (by decide))

/-- From a file at the root, `./` lists `/index.ts` and not `index.ts`. -/
theorem root_index_spelled_absolute :
    Segments.NormalPath "app.ts".toList ∧ importerDialect "app.ts".toList = .typeScript ∧ Relative "./".toList ∧
      (Segments.normalize (inDirOf "app.ts".toList "./".toList)).isSome = true ∧ Extendable "./".toList ∧
      ¬FormsListed "./".toList "app.ts".toList ∧
      "/index.ts".toList ∈ pathImportCandidates "./".toList "app.ts".toList ∧
      "index.ts".toList ∉ pathImportCandidates "./".toList "app.ts".toList := by
  refine ⟨by decide, by decide, Or.inl (by decide), by decide,
    extendable_of_none (by decide), fun h => ?_, by decide, by decide⟩
  obtain ⟨p, hp, hmem⟩ := h.index "ts".toList (by decide)
  have hindex : Segments.normalize (inDirOf "app.ts".toList ("./".toList ++ "/index.".toList ++ "ts".toList)) =
      some "index.ts".toList := by
    decide
  rw [hindex] at hp
  cases hp
  exact absurd hmem (by decide)

end Relative

end ImportPaths
end Graph
end CodeSage
