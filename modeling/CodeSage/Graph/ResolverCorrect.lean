import CodeSage.Graph.Resolver

/-!
# CodeSage.Graph.ResolverCorrect

What a candidate's handle names. A candidate of any grammar arm is a row of the index, a file, or a
feature (`Origin`); the handle of each is read back by `resolve_handle`. A symbol's handle names it alone
where the rows of its file that go by its name are written alike and begin on different lines
(`Addressable`): the overload flag of the query that found it then agrees with the rows of the query that
reads the handle.
-/

namespace CodeSage
namespace Graph
namespace Resolver

open Lib CodeSage.Protocol

variable {db : Index}

section Whitespace

theorem trim_not_endsInWhitespace (s : Text) : ¬EndsInWhitespace (trim s) := by
  rintro ⟨c, hc, hspace⟩
  have hne : trim s ≠ [] := by
    intro h
    rw [h] at hc
    cases hc
  have hlast : c = (trim s).getLast hne := by
    rw [List.getLast?_eq_getLast_of_ne_nil hne] at hc
    exact (Option.some.inj hc).symm
  exact List.rdropWhile_last_not isWhitespace _ hne (hlast ▸ hspace)

theorem stripCurrentDir_suffix (s : Text) : stripCurrentDir s <:+ s := by
  fun_induction stripCurrentDir s with
  | case1 rest ih => exact (ih.trans (List.suffix_cons '/' rest)).trans (List.suffix_cons '.' _)
  | case2 s => exact List.suffix_refl _

/-- A suffix of a text that is not all of it gone ends like the text. -/
theorem not_endsInWhitespace_of_suffix {s t : Text} (h : s <:+ t) (ht : ¬EndsInWhitespace t) :
    ¬EndsInWhitespace s := by
  obtain ⟨pre, rfl⟩ := h
  rintro ⟨c, hc, hspace⟩
  have hne : s ≠ [] := by
    rintro rfl
    cases hc
  exact ht ((endsInWhitespace_append hne).mpr ⟨c, hc, hspace⟩)

theorem isWhitespace_toLower (c : Char) : isWhitespace c.toLower = isWhitespace c := by
  by_cases hc : c.toNat < 0x80
  · have key : ∀ n : Fin 0x80, isWhitespace (Char.ofNat n).toLower = isWhitespace (Char.ofNat n) := by
      decide
    have := key ⟨c.toNat, hc⟩
    rwa [Char.ofNat_toNat] at this
  · have hlower : c.toLower = c := by
      refine dif_neg ?_
      rintro ⟨-, hz⟩
      exact hc (Nat.lt_of_le_of_lt (UInt32.le_iff_toNat_le.mp hz) (by decide))
    rw [hlower]

theorem endsInWhitespace_toLower (s : Text) : EndsInWhitespace (s.map Char.toLower) ↔ EndsInWhitespace s := by
  rw [EndsInWhitespace, List.getLast?_map, EndsInWhitespace]
  constructor
  · rintro ⟨c, hc, hspace⟩
    obtain ⟨d, hd, rfl⟩ := Option.map_eq_some_iff.mp hc
    exact ⟨d, hd, by rwa [isWhitespace_toLower] at hspace⟩
  · rintro ⟨c, hc, hspace⟩
    exact ⟨c.toLower, by rw [hc]; rfl, by rwa [isWhitespace_toLower]⟩

theorem not_endsInWhitespace_append_digit {s t : Text}
    (h : t = ['%', '2', '5'] ∨ t = ['%', '2', '3'] ∨ t = ['%', '4', '0']) : ¬EndsInWhitespace (s ++ t) := by
  rintro ⟨c, hc, hspace⟩
  obtain rfl | rfl | rfl := h <;> simp only [List.getLast?_append, List.getLast?_cons_cons,
    List.getLast?_singleton, Option.some_or, Option.some_inj] at hc <;> subst hc <;> revert hspace <;> decide

theorem endsInWhitespace_escape {s : Text} (h : EndsInWhitespace (Handle.escape s)) : EndsInWhitespace s := by
  obtain rfl | ⟨t, c, rfl⟩ := List.eq_nil_or_concat s
  · exact h
  · rw [List.concat_eq_append] at h ⊢
    rw [endsInWhitespace_append (by simp)]
    rw [Handle.escape_append, Handle.escape_cons, Handle.escape_nil, List.append_nil] at h
    obtain (rfl | rfl | rfl) | ⟨hself, -⟩ := Handle.escapeChar_cases c
    · exact absurd h (not_endsInWhitespace_append_digit (.inl rfl))
    · exact absurd h (not_endsInWhitespace_append_digit (.inr (.inl rfl)))
    · exact absurd h (not_endsInWhitespace_append_digit (.inr (.inr rfl)))
    · rwa [hself, endsInWhitespace_append (by simp)] at h

theorem unescape_eq_nil {s : Text} (h : Handle.unescape s = []) : s = [] := by
  revert h
  fun_cases Handle.unescape s <;> simp

/-- No escape sequence stands for white space. -/
theorem endsInWhitespace_unescape {s : Text} (h : EndsInWhitespace (Handle.unescape s)) : EndsInWhitespace s := by
  obtain ⟨c, hc, hspace⟩ := h
  refine ⟨c, ?_, hspace⟩
  have hcode : ∀ d ∈ ['%', '#', '@'], c ≠ d := by
    rintro d hd rfl
    simp only [List.mem_cons, List.not_mem_nil, or_false] at hd
    obtain rfl | rfl | rfl := hd <;> revert hspace <;> decide
  fun_induction Handle.unescape s with
  | case1 => exact hc
  | case2 rest ih | case3 rest ih | case4 rest ih | case5 x rest _ _ _ ih =>
    rw [List.getLast?_cons] at hc
    cases hlast : (Handle.unescape rest).getLast? with
    | none =>
      have hnil := unescape_eq_nil (List.getLast?_eq_none_iff.mp hlast)
      rw [hlast] at hc
      grind
    | some d => simp_all [List.getLast?_cons]

end Whitespace

section Rows

/-- Two rows written with the same names in the same file: the same name to every query. -/
def Definition.sameNames (r t : Definition) : Bool :=
  t.filePath = r.filePath && t.name = r.name && t.qualifiedName = r.qualifiedName

/-- A row as a query returned it: without the flag it is the only one of its file so named. -/
def RowOf (db : Index) (s : Definition) : Prop :=
  ∃ r ∈ db.symbols, s = { r with overloaded := s.overloaded }
    ∧ (s.overloaded = false → db.symbols.countP r.sameNames ≤ 1)

theorem mem_markOverloads {s : Definition} {l : List Definition} (h : s ∈ markOverloads l) :
    ∃ r ∈ l, s = { r with overloaded := s.overloaded }
      ∧ s.overloaded
        = decide (1 < l.countP fun t => t.filePath = r.filePath && t.qualifiedName = r.qualifiedName) := by
  obtain ⟨r, hr, rfl⟩ := List.mem_map.mp h
  exact ⟨r, hr, rfl, rfl⟩

/-- A query that selects rows by their names and their file misses no row of the same names. -/
theorem rowOf_markOverloads {s : Definition} {l : List Definition} {p : Definition → Bool}
    (hl : l.Perm (db.symbols.filter p)) (hp : ∀ r t, r.sameNames t = true → p r = true → p t = true)
    (h : s ∈ markOverloads l) : RowOf db s := by
  obtain ⟨r, hr, hs, hflag⟩ := mem_markOverloads h
  obtain ⟨hmem, hpr⟩ := List.mem_filter.mp (hl.mem_iff.mp hr)
  refine ⟨r, hmem, hs, fun hfalse => ?_⟩
  rw [hflag, decide_eq_false_iff_not, Nat.not_lt, hl.countP_eq, List.countP_filter] at hfalse
  refine Nat.le_trans (List.countP_mono_left fun t _ ht => ?_) hfalse
  have hpt := hp r t ht hpr
  simp only [Definition.sameNames, Bool.and_eq_true, decide_eq_true_eq] at ht
  simp [ht.1.1, ht.2, hpt]

theorem rowOf_findSymbols {name : Text} {s : Definition} (h : s ∈ findSymbols db name) : RowOf db s := by
  refine rowOf_markOverloads (List.Perm.refl _) (fun r t ht hp => ?_) h
  simp only [Definition.sameNames, Bool.and_eq_true, decide_eq_true_eq] at ht
  rw [ht.1.2, ht.2]
  exact hp

theorem rowOf_symbolsForFile {path : Text} {s : Definition} (h : s ∈ symbolsForFile db path) : RowOf db s := by
  refine rowOf_markOverloads (List.perm_insertionSort _ _) (fun r t ht hp => ?_) h
  simp only [Definition.sameNames, Bool.and_eq_true, decide_eq_true_eq] at ht
  rw [ht.1.1]
  exact hp

theorem rowOf_run {q : Query} {s : Definition} (h : s ∈ db.run q) : RowOf db s := by
  cases q with
  | findSymbols name => exact rowOf_findSymbols h
  | symbolsForFile path => exact rowOf_symbolsForFile h

theorem rowOf_callee {fromFile name : Text} {s : Definition}
    (h : s ∈ resolveCalleeDefinitions db fromFile name) : RowOf db s := by
  obtain ⟨pick, -, hget⟩ := List.mem_filterMap.mp h
  exact rowOf_run (List.mem_of_getElem? hget)

theorem retain_subset (opts : ResolveOptions) (l : List Definition) : opts.retain l ⊆ l := by
  intro s hs
  rw [ResolveOptions.retain, ResolveOptions.retainKind, retainDefinitions] at hs
  grind

theorem mem_sortDefinitions {s : Definition} {l : List Definition} : s ∈ sortDefinitions l ↔ s ∈ l :=
  (List.perm_insertionSort _ _).mem_iff

end Rows

section Origins

/-- What a candidate stands for, and where the text of its path came from. -/
inductive Origin (db : Index) (input : Text) (opts : ResolveOptions) : ResolvedTarget → Prop
  | symbol (s : Definition) (via : ResolveVia) (row : RowOf db s) : Origin db input opts (candidateOf s via)
  | file (path : Text) (via : ResolveVia) (mem : path ∈ db.files) (tail : ¬EndsInWhitespace path) :
    Origin db input opts (fileCandidate db path via)
  | pathLine (path : Text) (line : UInt32) (mem : path ∈ db.files)
    (split : splitPathLine (stripCurrentDir (trim input)) = some (path, line))
    (outside : enclosing db path line opts = []) :
    Origin db input opts { fileCandidate db path .exact with lineStart := some line, lineEnd := some line }
  | feature (f : Feature) (mem : f ∈ db.features) : Origin db input opts (featureCandidate f .exact)
  | dir (c : ResolvedTarget) (kind : c.kind = .dir) : Origin db input opts c
  | chunk (c : ResolvedTarget) (kind : c.kind = .chunk) : Origin db input opts c

/-- All candidates of an answer have an origin. -/
def Founded (db : Index) (input : Text) (opts : ResolveOptions) (a : TargetResolution) : Prop :=
  ∀ c ∈ a.resolved, Origin db input opts c

variable {input trimmed : Text} {opts : ResolveOptions} {a : Answer}

theorem founded_candidates {kind : TargetKind} {via : ResolveVia} {symbols : List Definition} {limit n m : Nat}
    (h : ∀ s ∈ symbols, RowOf db s) :
    Founded db input opts (.new trimmed kind (candidates symbols via limit) n m) := by
  intro c hc
  obtain ⟨s, hs, rfl⟩ := List.mem_map.mp hc
  exact .symbol s via (h s (List.mem_of_mem_take hs))

theorem founded_one {kind : TargetKind} {c : ResolvedTarget} (h : Origin db input opts c) :
    Founded db input opts (one trimmed kind c) := by
  intro c' hc'
  rw [List.mem_singleton.mp hc']
  exact h

theorem founded_nil {kind : TargetKind} : Founded db input opts (.new trimmed kind [] 0 0) := nofun

theorem innermost_concat (l : List Definition) (t : Definition) : innermost (l ++ [t]) =
    match innermost l with
    | some b => if b.lineStart ≤ t.lineStart then some t else some b
    | none => some t := by
  rw [innermost, List.foldl_append]
  rfl

/-- The last of the greatest: nothing before it starts later, everything after it starts earlier. -/
theorem innermost_eq_some {l : List Definition} {s : Definition} (h : innermost l = some s) :
    ∃ pre post, l = pre ++ s :: post ∧ (∀ t ∈ pre, t.lineStart ≤ s.lineStart) ∧
      ∀ t ∈ post, t.lineStart < s.lineStart := by
  induction l using List.reverseRecOn generalizing s with
  | nil => cases h
  | append_singleton l t ih =>
    rw [innermost_concat] at h
    cases hb : innermost l with
    | none =>
      rw [hb] at h
      cases h
      refine ⟨l, [], rfl, ?_, nofun⟩
      cases l using List.reverseRecOn with
      | nil => exact nofun
      | append_singleton l u =>
        rw [innermost_concat] at hb
        repeat' split at hb
        all_goals cases hb
    | some b =>
      obtain ⟨pre, post, rfl, hpre, hpost⟩ := ih hb
      rw [hb] at h
      simp only at h
      split at h
      · rename_i hle
        cases h
        refine ⟨pre ++ b :: post, [], rfl, ?_, nofun⟩
        intro u hu
        rcases List.mem_append.mp hu with hu | hu
        · exact UInt32.le_trans (hpre u hu) hle
        · rcases List.mem_cons.mp hu with rfl | hu
          · exact hle
          · exact UInt32.le_trans (UInt32.le_of_lt (hpost u hu)) hle
      · rename_i hlt
        cases h
        refine ⟨pre, post ++ [t], by simp, hpre, ?_⟩
        intro u hu
        rcases List.mem_append.mp hu with hu | hu
        · exact hpost u hu
        · rw [List.mem_singleton.mp hu]
          exact UInt32.not_le.mp hlt

theorem innermost_mem {l : List Definition} {s : Definition} (h : innermost l = some s) : s ∈ l := by
  obtain ⟨pre, post, rfl, -⟩ := innermost_eq_some h
  exact List.mem_append_right _ List.mem_cons_self

theorem innermost_eq_none {l : List Definition} (h : innermost l = none) : l = [] := by
  cases l using List.reverseRecOn with
  | nil => rfl
  | append_singleton l t =>
    rw [innermost_concat] at h
    repeat' split at h
    all_goals cases h

theorem founded_resolvePathLine {path : Text} {line : UInt32} (hmem : path ∈ db.files)
    (hsplit : splitPathLine (stripCurrentDir (trim input)) = some (path, line)) :
    Founded db input opts (resolvePathLine db trimmed path line opts).1 := by
  rw [resolvePathLine]
  split
  · rename_i s hs
    refine founded_candidates fun t ht => ?_
    rw [List.mem_singleton.mp ht]
    exact rowOf_symbolsForFile (retain_subset opts _ (List.mem_of_mem_filter (innermost_mem hs)))
  · rename_i hnone
    exact founded_one (.pathLine path line hmem hsplit (innermost_eq_none hnone))

theorem rowOf_narrowed {symbols : List Definition} {s : Definition} (h : narrowed db trimmed opts symbols = some s) :
    RowOf db s := by
  rw [narrowed] at h
  split at h
  · obtain ⟨fromFile, -, hnarrow⟩ := Option.bind_eq_some_iff.mp h
    rw [narrowByImports] at hnarrow
    split at hnarrow
    · rename_i only honly
      split at hnarrow
      · cases hnarrow
        exact rowOf_callee (honly ▸ List.mem_singleton_self s)
      · cases hnarrow
    · cases hnarrow
  · cases h

theorem founded_resolveSymbolName (h : resolveSymbolName db trimmed opts = some a) :
    Founded db input opts a.1 := by
  rw [resolveSymbolName] at h
  simp only at h
  split at h
  · cases h
  · split at h
    · rename_i only honly
      cases h
      exact founded_one (.symbol only .imports (rowOf_narrowed honly))
    · cases h
      refine founded_candidates fun s hs => ?_
      exact rowOf_findSymbols (retain_subset opts _ (mem_sortDefinitions.mp hs))

theorem mem_addLeads {via : ResolveVia} {found : Leads} {symbols : List Definition} {lead : Definition × ResolveVia}
    (h : lead ∈ addLeads via found symbols) : lead ∈ found ∨ lead.1 ∈ symbols := by
  rw [addLeads] at h
  induction symbols generalizing found with
  | nil => exact .inl h
  | cons s symbols ih =>
    rw [List.foldl_cons] at h
    obtain hfound | hmem := ih h
    · split at hfound
      · exact .inl hfound
      · obtain hfound | hnew := List.mem_append.mp hfound
        · exact .inl hfound
        · rw [List.mem_singleton.mp hnew]
          exact .inr List.mem_cons_self
    · exact .inr (List.mem_cons_of_mem s hmem)

theorem rowOf_addLeads {via : ResolveVia} {found : Leads} {name : Text} (hfound : ∀ lead ∈ found, RowOf db lead.1) :
    ∀ lead ∈ addLeads via found (opts.retain (findSymbols db name)), RowOf db lead.1 := by
  intro lead h
  obtain hold | hnew := mem_addLeads h
  · exact hfound lead hold
  · exact rowOf_findSymbols (retain_subset opts _ hnew)

theorem rowOf_casefolded : ∀ lead ∈ casefolded db trimmed opts, RowOf db lead.1 := by
  have key : ∀ (variants : List Text) (found : Leads), (∀ lead ∈ found, RowOf db lead.1) →
      ∀ lead ∈ variants.foldl (fun found variant =>
        addLeads .casefold found (opts.retain (findSymbols db variant))) found, RowOf db lead.1 := by
    intro variants
    induction variants with
    | nil => exact fun found h => h
    | cons v variants ih => exact fun found h => ih _ (rowOf_addLeads h)
  exact key _ [] nofun

theorem rowOf_leads : ∀ lead ∈ leads db trimmed opts, RowOf db lead.1 := by
  intro lead h
  rw [leads] at h
  split at h
  · split at h
    · have hnil : ∀ lead ∈ ([] : Leads), RowOf db lead.1 := nofun
      exact rowOf_addLeads hnil lead h
    · cases h
  · exact rowOf_casefolded lead h

theorem founded_nearestSymbols (h : nearestSymbols db trimmed opts = some a) : Founded db input opts a.1 := by
  rw [nearestSymbols] at h
  simp only at h
  split at h
  · cases h
  · cases h
    intro c hc
    obtain ⟨lead, hlead, rfl⟩ := List.mem_map.mp hc
    have hmem := (List.perm_insertionSort _ _).mem_iff.mp (List.mem_of_mem_take hlead)
    exact .symbol lead.1 lead.2 (rowOf_leads lead hmem)

theorem not_endsInWhitespace_of_matches {path : Text} {fold : Bool} (htail : ¬EndsInWhitespace trimmed)
    (hne : trimmed ≠ []) (h : pathSuffixMatches path trimmed fold = true) : ¬EndsInWhitespace path := by
  -- compared folded, the path still ends in the input
  have key : ∀ {a b : Text}, b ≠ [] → ¬EndsInWhitespace b →
      (a = b ∨ ∃ head, a.dropSuffix? b = some head) → ¬EndsInWhitespace a := by
    rintro a b hb hend (rfl | ⟨head, hhead⟩)
    · exact hend
    · rw [List.dropSuffix?_eq_some_iff] at hhead
      obtain ⟨rest, rfl, heq⟩ := hhead
      rw [beq_iff_eq.mp heq, endsInWhitespace_append hb]
      exact hend
  cases fold with
  | false =>
    simp only [pathSuffixMatches, Bool.false_eq_true, if_false, Bool.or_eq_true, decide_eq_true_eq] at h
    refine key hne htail (h.imp_right fun hdrop => ?_)
    split at hdrop
    · exact ⟨_, ‹_›⟩
    · cases hdrop
  | true =>
    simp only [pathSuffixMatches, if_true, Bool.or_eq_true, decide_eq_true_eq] at h
    rw [← endsInWhitespace_toLower]
    refine key (by simpa using hne) (by rwa [endsInWhitespace_toLower]) (h.imp_right fun hdrop => ?_)
    split at hdrop
    · exact ⟨_, ‹_›⟩
    · cases hdrop

theorem founded_nearestPaths {r : TargetResolution} (htail : ¬EndsInWhitespace trimmed)
    (h : nearestPaths db trimmed opts = some r) : Founded db input opts r := by
  rw [nearestPaths] at h
  split at h
  · cases h
  · rename_i hsep
    have hne : trimmed ≠ [] := by
      rintro rfl
      exact hsep rfl
    -- whichever comparison found the paths, they end in the input
    have hfiles : ∀ (fold : Bool) (via : ResolveVia) (limit n m : Nat),
        Founded db input opts (.new trimmed .file (((db.files.filter (pathSuffixMatches · trimmed fold)).take
          limit).map (fileCandidate db · via)) n m) := by
      intro fold via limit n m c hc
      obtain ⟨path, hpath, rfl⟩ := List.mem_map.mp hc
      obtain ⟨hfile, hmatch⟩ := List.mem_filter.mp (List.mem_of_mem_take hpath)
      exact .file path via hfile (not_endsInWhitespace_of_matches htail hne hmatch)
    by_cases hsuffix : (db.files.filter (pathSuffixMatches · trimmed false)).isEmpty = true
    · simp only [hsuffix, if_true] at h
      split at h
      · cases h
      · cases h
        exact hfiles true _ _ _ _
    · simp only [hsuffix] at h
      rw [if_neg (by simpa using hsuffix)] at h
      cases h
      exact hfiles false _ _ _ _

theorem founded_movedDefinition {qualified : Text} (h : movedDefinition db trimmed qualified opts = some a) :
    Founded db input opts a.1 := by
  rw [movedDefinition] at h
  simp only at h
  split at h
  · obtain ⟨answer, hnear, rfl⟩ := Option.map_eq_some_iff.mp h
    exact fun c hc => founded_nearestSymbols hnear c hc
  · cases h
    refine founded_candidates fun s hs => ?_
    exact rowOf_findSymbols (retain_subset opts _ (mem_sortDefinitions.mp hs))

theorem retainKind_subset (opts : ResolveOptions) (l : List Definition) : opts.retainKind l ⊆ l := by
  intro s hs
  rw [ResolveOptions.retainKind] at hs
  grind

theorem founded_resolveSymbolHandle {path qualified : Text} {line : Option UInt32} :
    Founded db input opts (resolveSymbolHandle db trimmed path qualified line opts).1 := by
  have hfound : ∀ s ∈ namedBy db path qualified line opts, RowOf db s := by
    intro s hs
    have hmem := retainKind_subset opts _ (mem_sortDefinitions.mp hs)
    exact rowOf_symbolsForFile (List.mem_of_mem_filter (List.mem_of_mem_filter hmem))
  rw [resolveSymbolHandle]
  split
  · cases hmoved : movedDefinition db trimmed qualified opts with
    | none => exact founded_candidates hfound
    | some a => exact founded_movedDefinition hmoved
  · exact founded_candidates hfound

theorem holdsFile_iff {path : Text} : db.holdsFile path = true ↔ path ∈ db.files := List.contains_iff_mem

theorem loadFeature_some {id : Text} {f : Feature} (h : loadFeature db id = some f) :
    f ∈ db.features ∧ f.featureId = id :=
  ⟨List.mem_of_find?_eq_some h, by simpa using List.find?_some h⟩

theorem not_endsInWhitespace_of_parse {path : Text} (htail : ¬EndsInWhitespace trimmed)
    (hparse : Handle.parse trimmed = some (.file path)) : ¬EndsInWhitespace path := by
  obtain ⟨hex, -, hp⟩ | ⟨rest, -, hp⟩ | ⟨rest, rfl, hp⟩ | ⟨rest, -, hp⟩ | ⟨rest, -, hp⟩ := Handle.parse_cases hparse
  · cases (Handle.parseFeature_eq_some.mp hp).1
  · simp only [Handle.parseSymbol, Option.bind_eq_bind, Option.bind_eq_some_iff] at hp
    grind
  · obtain ⟨heq, hvalid⟩ := Handle.ofFile_eq_some hp
    cases heq
    intro hend
    have hrest : rest ≠ [] := by
      rintro rfl
      obtain ⟨c, hc, -⟩ := hend
      cases hc
    exact htail ((endsInWhitespace_append hrest).mpr (endsInWhitespace_unescape hend))
  · cases (Handle.ofDir_eq_some hp).1
  · simp only [Handle.parseChunk, Option.bind_eq_bind, Option.bind_eq_some_iff] at hp
    grind

theorem founded_resolveHandle {handle : Handle} (htail : ¬EndsInWhitespace trimmed)
    (hparse : Handle.parse trimmed = some handle) :
    Founded db input opts (resolveHandle db trimmed handle opts).1 := by
  cases handle with
  | symbol path qualified line => exact founded_resolveSymbolHandle
  | file path =>
    simp only [resolveHandle]
    split
    · rename_i hfile
      exact founded_one (.file path .exact (holdsFile_iff.mp hfile)
        (not_endsInWhitespace_of_parse htail hparse))
    · exact founded_nil
  | dir path =>
    simp only [resolveHandle]
    split
    · exact founded_one (.dir _ rfl)
    · exact founded_nil
  | chunk path start stop =>
    simp only [resolveHandle]
    split
    · exact founded_one (.chunk _ rfl)
    · exact founded_nil
  | feature id =>
    simp only [resolveHandle]
    split
    · rename_i f hload
      exact founded_one (.feature f (loadFeature_some hload).1)
    · exact founded_nil

theorem founded_resolveFeatureEntry {entry : Text} {kind : TargetKind} :
    Founded db input opts (resolveFeatureEntry db trimmed entry kind opts) := by
  intro c hc
  obtain ⟨f, hf, rfl⟩ := List.mem_map.mp hc
  have hlist := List.mem_of_mem_filter (List.mem_of_mem_take hf)
  exact .feature f (List.mem_of_mem_filter ((List.perm_insertionSort _ _).mem_iff.mp hlist))

theorem founded_entryArm (h : entryArm db trimmed opts = some a) : Founded db input opts a.1 := by
  rw [entryArm] at h
  split at h
  · split at h
    · cases h
      exact founded_resolveFeatureEntry
    · split at h
      · cases h
        exact founded_resolveFeatureEntry
      · cases h
  · cases h

theorem founded_pathArm (h : pathArm db (trim input) opts = some a) : Founded db input opts a.1 := by
  have htail : ¬EndsInWhitespace (stripCurrentDir (trim input)) :=
    not_endsInWhitespace_of_suffix (stripCurrentDir_suffix _) (trim_not_endsInWhitespace input)
  rw [pathArm] at h
  split at h
  · cases h
  · split at h
    · rename_i hfile
      cases h
      exact founded_one (.file _ .exact (holdsFile_iff.mp hfile) htail)
    · split at h
      · rename_i path line hsplit
        split at h
        · rename_i hfile
          cases h
          exact founded_resolvePathLine (holdsFile_iff.mp hfile) hsplit
        · cases h
      · cases h

theorem founded_symbolArm (h : symbolArm db trimmed opts = some a) : Founded db input opts a.1 := by
  rw [symbolArm] at h
  split at h
  · exact founded_resolveSymbolName h
  · cases h

theorem founded_featureArm (h : featureArm db trimmed opts = some a) : Founded db input opts a.1 := by
  rw [featureArm] at h
  split at h
  · obtain ⟨f, hload, rfl⟩ := Option.map_eq_some_iff.mp h
    exact founded_one (.feature f (loadFeature_some hload).1)
  · cases h

theorem founded_nearestSymbolArm (h : nearestSymbolArm db trimmed opts = some a) :
    Founded db input opts a.1 := by
  rw [nearestSymbolArm] at h
  split at h
  · exact founded_nearestSymbols h
  · cases h

theorem founded_nearestPathArm (htail : ¬EndsInWhitespace trimmed) (h : nearestPathArm db trimmed opts = some a) :
    Founded db input opts a.1 := by
  rw [nearestPathArm] at h
  split at h
  · obtain ⟨r, hnear, rfl⟩ := Option.map_eq_some_iff.mp h
    exact fun c hc =>
      founded_nearestPaths (not_endsInWhitespace_of_suffix (stripCurrentDir_suffix _) htail) hnear c hc
  · cases h

/-- Whatever arm answers, its candidates are rows, files and features of the index. -/
theorem founded_resolveTarget (db : Index) (input : Text) (opts : ResolveOptions) :
    Founded db input opts (resolveTarget db input opts) := by
  have htail := trim_not_endsInWhitespace input
  rw [resolveTarget, resolveSymbols]
  split
  · exact founded_nil
  · split
    · rename_i handle hparse
      exact founded_resolveHandle htail hparse
    · generalize harm : (entryArm db (trim input) opts <|> _) = arm
      cases arm with
      | none => exact founded_nil
      | some a =>
        simp only [Option.orElse_eq_orElse, Option.orElse_eq_or, Option.or_eq_some_iff] at harm
        obtain h | ⟨-, h | ⟨-, h | ⟨-, h | ⟨-, h | ⟨-, h⟩⟩⟩⟩⟩ := harm
        · exact founded_entryArm h
        · exact founded_pathArm h
        · exact founded_symbolArm h
        · exact founded_featureArm h
        · exact founded_nearestSymbolArm h
        · exact founded_nearestPathArm htail h

end Origins

section ReadBack

/-- What two candidates for one entity agree on. -/
def entity (c : ResolvedTarget) : Option Text × CandidateKind × Option UInt32 × Option UInt32 :=
  (c.path, c.kind, c.lineStart, c.lineEnd)

/-- A text resolves, without options, to one candidate by an exact match. -/
def NamesAlone (db : Index) (text : Text) (e : Option Text × CandidateKind × Option UInt32 × Option UInt32) : Prop :=
  ∃ c, (resolveTarget db text {}).resolved = [c] ∧ (resolveTarget db text {}).candidatesTotal = 1
    ∧ c.via = .exact ∧ entity c = e

theorem resolveTarget_handle {text : Text} {handle : Handle} {opts : ResolveOptions} (htrim : trim text = text)
    (hne : text ≠ []) (hparse : Handle.parse text = some handle) :
    resolveTarget db text opts = (resolveHandle db text handle opts).1 := by
  rw [resolveTarget, resolveSymbols, htrim, if_neg (by simpa using hne), hparse]

theorem namesAlone_one {text : Text} {kind : TargetKind} {c : ResolvedTarget}
    (h : resolveTarget db text {} = one text kind c) (hvia : c.via = .exact) : NamesAlone db text (entity c) := by
  refine ⟨c, ?_, ?_, hvia, rfl⟩ <;> rw [h] <;> rfl

theorem file_namesAlone {path : Text} {via : ResolveVia} (hmem : path ∈ db.files) (htail : ¬EndsInWhitespace path) :
    NamesAlone db (fileCandidate db path via).handle (entity (fileCandidate db path via)) := by
  have hvalid := db.paths_valid path hmem
  have htext : (fileCandidate db path via).handle = Handle.FILE ++ Handle.escape path := by
    rw [fileCandidate, Handle.ofFile, if_pos hvalid]
    rfl
  have hne : Handle.escape path ≠ [] := by
    intro h
    rw [Handle.escape_eq_nil.mp h] at hvalid
    cases hvalid
  have htrim : trim (Handle.FILE ++ Handle.escape path) = Handle.FILE ++ Handle.escape path := by
    refine trim_eq_self ?_ ?_
    · rintro c ⟨⟩
      rfl
    · rw [endsInWhitespace_append hne]
      exact fun h => htail (endsInWhitespace_escape h)
  have hparse : Handle.parse (Handle.FILE ++ Handle.escape path) = some (.file path) := by
    rw [Handle.parse_file, Handle.parseFile, Handle.unescape_escape, Handle.ofFile, if_pos hvalid]
  have hres : resolveTarget db (Handle.FILE ++ Handle.escape path) {}
      = one (Handle.FILE ++ Handle.escape path) .file (fileCandidate db path .exact) := by
    rw [resolveTarget_handle htrim (by simp [Handle.FILE]) hparse]
    simp only [resolveHandle, if_pos (holdsFile_iff.mpr hmem)]
  have halone : NamesAlone db _ (entity (fileCandidate db path .exact)) := namesAlone_one hres rfl
  rw [htext]
  exact halone

theorem loadFeature_self {f : Feature} (hmem : f ∈ db.features) : loadFeature db f.featureId = some f := by
  cases hload : loadFeature db f.featureId with
  | none => simpa using List.find?_eq_none.mp hload f hmem
  | some g =>
    obtain ⟨hg, hid⟩ := loadFeature_some hload
    rw [List.inj_on_of_nodup_map db.ids_unique hg hmem hid]

theorem feature_namesAlone {f : Feature} (hmem : f ∈ db.features) :
    NamesAlone db f.featureId (entity (featureCandidate f .exact)) := by
  obtain ⟨hex, hid, hlen, hhex⟩ := db.ids_derived f hmem
  have hne : hex ≠ [] := by
    rintro rfl
    cases hlen
  have htrim : trim f.featureId = f.featureId := by
    rw [hid]
    refine trim_eq_self ?_ ?_
    · rintro c ⟨⟩
      rfl
    · rw [endsInWhitespace_append hne]
      rintro ⟨c, hc, hspace⟩
      have key : (Handle.HEX.all fun c => !isWhitespace c) = true := by decide
      have hnot := List.all_eq_true.mp key c (hhex c (List.mem_of_getLast? hc))
      rw [Bool.not_eq_true'] at hnot
      rw [hnot] at hspace
      cases hspace
  have hparse : Handle.parse f.featureId = some (.feature f.featureId) := by
    rw [hid, Handle.parse_feature]
    exact Handle.parseFeature_eq_some.mpr ⟨rfl, hlen, hhex⟩
  have hres : resolveTarget db f.featureId {} = one f.featureId .feature (featureCandidate f .exact) := by
    rw [resolveTarget_handle htrim (by simp [hid, Handle.FEATURE_PREFIX]) hparse]
    simp only [resolveHandle, loadFeature_self hmem]
  exact namesAlone_one hres rfl

/-- The rows a symbol handle selects. -/
def Definition.selected (path qualified : Text) (line : Option UInt32) (t : Definition) : Bool :=
  t.filePath = path && names t qualified && line.all (t.lineStart = ·)

theorem countP_markOverloads {p : Definition → Bool} (hp : ∀ s b, p { s with overloaded := b } = p s)
    (l : List Definition) : (markOverloads l).countP p = l.countP p := by
  rw [markOverloads, List.countP_map]
  exact List.countP_congr fun s _ => by rw [Function.comp_apply, hp]

theorem length_namedBy (path qualified : Text) (line : Option UInt32) :
    (namedBy db path qualified line {}).length = db.symbols.countP (Definition.selected path qualified line) := by
  have hkind : ∀ l, ResolveOptions.retainKind {} l = l := fun l => rfl
  rw [namedBy, sortDefinitions, List.length_insertionSort, hkind, List.filter_filter,
    ← List.countP_eq_length_filter, symbolsForFile, countP_markOverloads fun s b => rfl,
    (List.perm_insertionSort _ _).countP_eq, List.countP_filter]
  refine List.countP_congr fun t _ => ?_
  rw [Definition.selected]
  grind

theorem selected_of_mem_namedBy {path qualified : Text} {line : Option UInt32} {s : Definition}
    (h : s ∈ namedBy db path qualified line {}) :
    ∃ t ∈ db.symbols, s = { t with overloaded := s.overloaded } ∧ t.selected path qualified line = true := by
  have hmem := retainKind_subset {} _ (mem_sortDefinitions.mp h)
  obtain ⟨hmem, hline⟩ := List.mem_filter.mp hmem
  obtain ⟨hmem, hname⟩ := List.mem_filter.mp hmem
  obtain ⟨t, ht, hs, -⟩ := mem_markOverloads hmem
  obtain ⟨ht, hfile⟩ := List.mem_filter.mp ((List.perm_insertionSort _ _).mem_iff.mp ht)
  refine ⟨t, ht, hs, ?_⟩
  rw [hs] at hline hname
  simp only [Definition.selected, Bool.and_eq_true]
  exact ⟨⟨hfile, hname⟩, hline⟩

theorem names_iff {t : Definition} {q : Text} (hq : q ≠ []) : names t q = true ↔ t.address = q := by
  rw [names, Definition.address]
  cases hqual : t.qualifiedName with
  | nil => simp [Ne.symm hq]
  | cons c rest => simp

/-- What the index must hold for a handle to single out a definition: it has a name, no other definition of
its file under that name starts on its line, and those under that name are written like it. -/
structure Addressable (db : Index) (r : Definition) : Prop where
  named : r.address ≠ []
  alone : db.symbols.countP (fun t =>
    t.filePath = r.filePath && t.address = r.address && t.lineStart = r.lineStart) ≤ 1
  alike : ∀ t ∈ db.symbols, t.filePath = r.filePath → t.address = r.address →
    t.name = r.name ∧ t.qualifiedName = r.qualifiedName

theorem eq_of_countP_le_one {α : Type} {p : α → Bool} {l : List α} (h : l.countP p ≤ 1) {a b : α} (ha : a ∈ l)
    (hb : b ∈ l) (hpa : p a = true) (hpb : p b = true) : a = b := by
  rw [List.countP_eq_length_filter] at h
  have ha := List.mem_filter.mpr ⟨ha, hpa⟩
  have hb := List.mem_filter.mpr ⟨hb, hpb⟩
  generalize l.filter p = m at h ha hb
  match m, h with
  | [c], _ => rw [List.mem_singleton.mp ha, List.mem_singleton.mp hb]

/-- The flag of the query that found a row and the rows under its name agree. -/
theorem countP_selected {r : Definition} {flag : Bool} (hr : r ∈ db.symbols) (ha : Addressable db r)
    (hflag : flag = false → db.symbols.countP r.sameNames ≤ 1) :
    db.symbols.countP (Definition.selected r.filePath r.address (if flag then some r.lineStart else none)) = 1 := by
  refine Nat.le_antisymm ?_ (List.countP_pos_iff.mpr ⟨r, hr, ?_⟩)
  · cases flag with
    | true =>
      refine Nat.le_trans (List.countP_mono_left fun t _ ht => ?_) ha.alone
      simp only [Definition.selected, Bool.and_eq_true, names_iff ha.named] at ht
      simpa using ht
    | false =>
      refine Nat.le_trans (List.countP_mono_left fun t hmem ht => ?_) (hflag rfl)
      simp only [Definition.selected, Bool.and_eq_true, names_iff ha.named, decide_eq_true_eq] at ht
      obtain ⟨hname, hqual⟩ := ha.alike t hmem ht.1.1 ht.1.2
      simp [Definition.sameNames, ht.1.1, hname, hqual]
  · simp only [Definition.selected, Bool.and_eq_true, (names_iff ha.named).mpr rfl]
    cases flag <;> simp

theorem symbol_namesAlone {s r : Definition} {via : ResolveVia} (hr : r ∈ db.symbols)
    (hs : s = { r with overloaded := s.overloaded })
    (hflag : s.overloaded = false → db.symbols.countP r.sameNames ≤ 1) (ha : Addressable db r)
    (htail : ¬EndsInWhitespace s.handle.toText) :
    NamesAlone db (candidateOf s via).handle (entity (candidateOf s via)) := by
  have hhandle : s.handle = .symbol r.filePath r.address (if s.overloaded then some r.lineStart else none) := by
    rw [hs]
    rfl
  have htrim : trim s.handle.toText = s.handle.toText := by
    refine trim_eq_self ?_ htail
    rw [hhandle]
    rintro c ⟨⟩
    rfl
  have hparse : Handle.parse s.handle.toText = some s.handle := by
    rw [hhandle]
    exact Handle.parse_symbol_text (db.paths_valid _ (db.symbols_joined r hr)) ha.named _
  have hcount := countP_selected hr ha hflag
  obtain ⟨t, hone⟩ := List.length_eq_one_iff.mp ((length_namedBy r.filePath r.address _).trans hcount)
  -- the row read back is the row the handle was written for
  obtain ⟨u, hu, ht, hsel⟩ := selected_of_mem_namedBy (hone ▸ List.mem_singleton_self t)
  have hself : r.selected r.filePath r.address (if s.overloaded then some r.lineStart else none) = true := by
    simp only [Definition.selected, Bool.and_eq_true, (names_iff ha.named).mpr rfl]
    cases s.overloaded <;> simp
  have hur : u = r := eq_of_countP_le_one (Nat.le_of_eq hcount) hu hr hsel hself
  have hres : resolveTarget db s.handle.toText {} = .new s.handle.toText .symbol [candidateOf t .exact] 1
      (countOverloads [t]) := by
    rw [resolveTarget_handle htrim (by simp [hhandle, Handle.toText, Handle.SYM]) hparse, hhandle]
    simp only [resolveHandle, resolveSymbolHandle, hone]
    rfl
  refine ⟨candidateOf t .exact, ?_, ?_, rfl, ?_⟩
  · exact congrArg TargetResolution.resolved hres
  · exact congrArg TargetResolution.candidatesTotal hres
  · rw [ht, hs, hur]
    rfl

end ReadBack

section Results

/-- A candidate is the candidate of a row, with or without the line in its handle. -/
def Definition.Describes (r : Definition) (c : ResolvedTarget) : Prop :=
  ∃ flag, c = candidateOf { r with overloaded := flag } c.via

/-- How the handle of a candidate reads back. A file that answers for a line outside every definition keeps
the line in that answer only: its handle is the file's. -/
def ReadsBack (db : Index) (input : Text) (opts : ResolveOptions) (c : ResolvedTarget) : Prop :=
  match c.kind with
  | .symbol _ => ∃ r ∈ db.symbols, r.Describes c
    ∧ (Addressable db r → ¬EndsInWhitespace c.handle → NamesAlone db c.handle (entity c))
  | .file => NamesAlone db c.handle (entity c) ∨
    ∃ path line, splitPathLine (stripCurrentDir (trim input)) = some (path, line)
      ∧ enclosing db path line opts = [] ∧ entity c = (some path, .file, some line, some line)
      ∧ (¬EndsInWhitespace path → NamesAlone db c.handle (some path, .file, none, none))
  | .feature => NamesAlone db c.handle (entity c)
  | .dir | .chunk => True

theorem candidate_handle_reads_back (db : Index) (input : Text) (opts : ResolveOptions) (c : ResolvedTarget)
    (hc : c ∈ (resolveTarget db input opts).resolved) : ReadsBack db input opts c := by
  cases founded_resolveTarget db input opts c hc with
  | symbol s via row =>
    obtain ⟨r, hr, hs, hflag⟩ := row
    refine ⟨r, hr, ⟨s.overloaded, ?_⟩, fun ha htail => symbol_namesAlone hr hs hflag ha htail⟩
    rw [← hs]
    rfl
  | file path via mem tail => exact .inl (file_namesAlone mem tail)
  | pathLine path line mem split outside =>
    refine .inr ⟨path, line, split, outside, rfl, fun htail => ?_⟩
    have halone : NamesAlone db (fileCandidate db path .exact).handle _ := file_namesAlone mem htail
    exact halone
  | feature f mem => exact feature_namesAlone mem
  | dir c kind =>
    rw [ReadsBack, kind]
    trivial
  | chunk c kind =>
    rw [ReadsBack, kind]
    trivial

/-- An index of one file with the given definitions. -/
def Index.ofFile (path : Text) (valid : Handle.validPath path = true) (symbols : List Definition)
    (joined : ∀ s ∈ symbols, s.filePath ∈ [path]) : Index where
  files := [path]
  symbols
  features := []
  callees := fun _ _ => []
  isTestPath := fun _ => false
  paths_valid := by simpa using valid
  symbols_joined := joined
  ids_derived := nothing_derived
  ids_unique := List.nodup_nil

/-- A function of the file `a`. -/
def function (name qualifiedName : Text) (lineStart lineEnd : UInt32) : Definition :=
  { name, qualifiedName, kind := .function, filePath := ['a'], lineStart, lineEnd }

/-- Two overloads on different lines. -/
def overloads : Index :=
  .ofFile ['a'] (by decide) [function ['f'] ['f'] 3 4, function ['f'] ['f'] 7 9] (by decide)

theorem overloads_addressable : ∀ r ∈ overloads.symbols, Addressable overloads r := by
  intro r hr
  have hcases : r = function ['f'] ['f'] 3 4 ∨ r = function ['f'] ['f'] 7 9 := by
    simpa [overloads, Index.ofFile] using hr
  obtain rfl | rfl := hcases <;> exact ⟨by decide, by decide, by decide⟩

theorem candidate_handle_reads_back_overloads :
    (resolveTarget overloads ['f'] {}).resolved.length = 2
      ∧ ∀ c ∈ (resolveTarget overloads ['f'] {}).resolved, NamesAlone overloads c.handle (entity c) := by
  refine ⟨by decide, fun c hc => ?_⟩
  have hback := candidate_handle_reads_back overloads ['f'] {} c hc
  have hkind : ∀ c ∈ (resolveTarget overloads ['f'] {}).resolved,
      c.kind = .symbol .function ∧ c.handle.getLast?.all (!isWhitespace ·) = true := by decide
  obtain ⟨hsym, hlast⟩ := hkind c hc
  rw [ReadsBack, hsym] at hback
  obtain ⟨r, hr, -, halone⟩ := hback
  refine halone (overloads_addressable r hr) ?_
  rintro ⟨d, hd, hspace⟩
  rw [hd] at hlast
  simp [hspace] at hlast

/-- The handle of each candidate for a symbol, a file or a feature reads back as that candidate. -/
def EachNamedAlone (db : Index) (input : Text) (opts : ResolveOptions) : Prop :=
  ∀ c ∈ (resolveTarget db input opts).resolved, c.kind ≠ .dir → c.kind ≠ .chunk →
    NamesAlone db c.handle (entity c)

theorem not_eachNamedAlone {input : Text} {opts : ResolveOptions}
    (h : (resolveTarget db input opts).resolved.any (fun c => c.kind ≠ .dir && c.kind ≠ .chunk
      && (resolveTarget db c.handle {}).resolved.map entity ≠ [entity c]) = true) :
    ¬EachNamedAlone db input opts := by
  intro hall
  simp only [List.any_eq_true, Bool.and_eq_true, decide_eq_true_eq] at h
  obtain ⟨c, hc, ⟨hdir, hchunk⟩, hne⟩ := h
  obtain ⟨c', hres, -, -, hent⟩ := hall c hc hdir hchunk
  rw [hres, List.map_singleton, hent] at hne
  exact hne rfl

/-- A line outside every definition; two definitions of one name on one line; a definition without a
qualified name beside one qualified by that name; a name that ends in white space. -/
theorem handle_names_another :
    ¬EachNamedAlone (.ofFile ['a'] (by decide) [] (by decide)) ['a', ':', '3'] {}
    ∧ ¬EachNamedAlone (.ofFile ['a'] (by decide) [function ['f'] ['f'] 3 3, function ['f'] ['f'] 3 3] (by decide))
      ['f'] {}
    ∧ ¬EachNamedAlone (.ofFile ['a'] (by decide) [function ['f'] [] 3 4, function ['f'] ['f'] 7 9] (by decide))
      ['f'] {}
    ∧ ¬EachNamedAlone (.ofFile ['a'] (by decide) [function ['f', ' '] ['f', ' '] 3 4] (by decide))
      ['a', ':', '3'] {} := by
  refine ⟨?_, ?_, ?_, ?_⟩ <;> exact not_eachNamedAlone (by decide)

end Results

end Resolver
end Graph
end CodeSage
