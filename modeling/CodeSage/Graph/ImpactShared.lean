import CodeSage.Graph.ImpactLevels

/-!
# CodeSage.Graph.ImpactShared

A walk over a cache and under a budget, against the walk over fixed lookups without a budget. As long as the cache is
`Coherent` with the lookups and the budget is never spent, the two go through the same states (`Alike`).
-/

namespace CodeSage
namespace Graph
namespace Impact

open Lib

section Coherent

variable {Symbol File Name Kind κ : Type}

/-- The rows of the imports that match a file, numbered from `index`. -/
def matchRows (E : Evidence Symbol File Name Kind) (file : File) : List (Reference File Name Kind) → Nat → List Nat
  | [], _ => []
  | r :: rest, index =>
    if E.targetsFile r file then index :: matchRows E file rest (index + 1) else matchRows E file rest (index + 1)

/-- The lookups answer as the fixed ones, and for the files in `Q` what the cache has of a walk's imports is what
matches. -/
structure Coherent (L : Lookup Symbol File Name Kind κ) (E : Evidence Symbol File Name Kind)
    (req : ImpactRequest Symbol File) (Q : File → Prop) (R : κ → Bool → Prop) : Prop where
  name : L.name = E.name
  filePath : L.filePath = E.filePath
  fileImports : L.fileImports = E.fileImports
  owner : L.owner = E.owner
  references : ∀ c b x, R c b →
    (L.references c x).1 = E.references x ∧ R (L.references c x).2 (b || E.contextCapped x)
  targetsFile : ∀ c b r f, R c b → (L.targetsFile c r f).1 = E.targetsFile r f ∧ R (L.targetsFile c r f).2 b
  cached : ∀ c b f rows, Q f → R c b → L.cachedMatches c f = some rows →
    rows = matchRows E f (walkImports E.lookup req) 0
  remembered : ∀ c b f, Q f → R c b → R (L.rememberImports c f (matchRows E f (walkImports E.lookup req) 0)) b

/-- The run with a flag for its cache and without its budget. -/
def Run.bare (s : Run Symbol File Name Kind κ) (b : Bool) : Run Symbol File Name Kind Bool :=
  { s with cache := b, budget := none, budgetSpent := false }

/-- A deadline that has passed has exhausted the budget. -/
def Budget.Sane (b : Budget) : Prop := b.deadlineHit = true → b.exhausted = true

/-- The budget has not been spent, and with `free` there is none. -/
structure Fine (R : κ → Bool → Prop) (free : Prop) (s : Run Symbol File Name Kind κ) (b : Bool) : Prop where
  cache : R s.cache b
  free : free → s.budget = none
  unspent : s.budgetSpent = false
  sane : ∀ budget, s.budget = some budget → budget.Sane

/-- The runs end alike, or the budget has been spent. -/
def Agree (R : κ → Bool → Prop) (free : Prop) (x : Option (Run Symbol File Name Kind κ))
    (y : Option (Run Symbol File Name Kind Bool)) : Prop :=
  (∃ s b, x = some s ∧ y = some (s.bare b) ∧ Fine R free s b) ∨ ¬free ∧ ∀ s, x = some s → s.budgetSpent = true

end Coherent

section Spent

variable {Symbol File Name Kind κ : Type} {L : Lookup Symbol File Name Kind κ} {req : ImpactRequest Symbol File}
  {depth : Nat}

/-! A spent budget stays spent to the end of the level. -/

theorem lookAt_spent {s : Run Symbol File Name Kind κ} {index : Nat} (h : s.budgetSpent = true ∨ (lookAt s index).1 = true) :
    (lookAt s index).2.budgetSpent = true := by
  unfold lookAt at h ⊢
  split at h
  · rename_i hindex
    rw [if_pos hindex]
    split at h
    · split
      · rfl
      · rename_i hdead
        exact h.resolve_right fun h => by simp [hdead] at h
    · exact h.resolve_right nofun
  · rename_i hindex
    rw [if_neg hindex]
    exact h.resolve_right nofun

theorem admitFile_spent {s : Run Symbol File Name Kind κ}
    (h : s.budgetSpent = true ∨ (admitFile L req s).1 = false) : (admitFile L req s).2.budgetSpent = true := by
  unfold admitFile at h ⊢
  split at h
  · exact h.resolve_right nofun
  · dsimp only at h ⊢
    split
    · rfl
    split
    · rfl
    split
    · rfl
    · rename_i h₁ h₂ h₃
      rw [if_neg h₁, if_neg h₂, if_neg h₃] at h
      exact h.resolve_right nofun

variable [DecidableEq File] [DecidableEq Name] [DecidableEq Kind]

theorem follow_budgetSpent {s : Run Symbol File Name Kind κ} {push : Bool} {reason : Reason Name Kind}
    {r : Reference File Name Kind} : (follow req depth push reason s r).budgetSpent = s.budgetSpent := by
  unfold follow
  dsimp only
  split <;> rfl

theorem followLevel_budgetSpent {level : List (Symbol × List (Reference File Name Kind))} :
    ∀ {s : Run Symbol File Name Kind κ}, (followLevel L req depth level s).budgetSpent = s.budgetSpent := by
  have hrows : ∀ (x : Symbol) (rows : List (Reference File Name Kind)) (s : Run Symbol File Name Kind κ),
      (rows.foldl (followReference L req depth x) s).budgetSpent = s.budgetSpent := by
    intro x rows
    induction rows with
    | nil => exact fun _ => rfl
    | cons r rest ih =>
      intro s
      rw [List.foldl_cons, ih]
      unfold followReference
      split
      · rfl
      · exact follow_budgetSpent
  induction level with
  | nil => exact fun {_} => rfl
  | cons row rest ih =>
    intro s
    rw [followLevel, List.foldl_cons]
    exact ih.trans (hrows row.1 row.2 s)

theorem followImport_budgetSpent {s : Run Symbol File Name Kind κ} {r : Reference File Name Kind} :
    (followImport L req depth s r).budgetSpent = s.budgetSpent := by
  unfold followImport
  split
  · rfl
  · exact follow_budgetSpent

theorem followCached_spent {rows : List Nat} : ∀ {index : Nat} {s s' : Run Symbol File Name Kind κ},
    s.budgetSpent = true → followCached L req depth rows index s = some s' → s'.budgetSpent = true := by
  induction rows with
  | nil =>
    intro index s s' hspent h
    cases h
    exact hspent
  | cons row rest ih =>
    intro index s s' hspent h
    have hlook : (lookAt s index).2.budgetSpent = true := lookAt_spent (.inl hspent)
    rw [followCached] at h
    split at h
    · cases h
      exact hlook
    split at h
    · cases h
    · exact ih (followImport_budgetSpent.trans hlook) h

theorem followMatching_spent {file : File} {imports : List (Reference File Name Kind)} :
    ∀ {index : Nat} {s : Run Symbol File Name Kind κ}, s.budgetSpent = true →
      (followMatching L req depth file imports index s).2.budgetSpent = true := by
  induction imports with
  | nil => exact fun h => h
  | cons r rest ih =>
    intro index s hspent
    have hlook : (lookAt s index).2.budgetSpent = true := lookAt_spent (.inl hspent)
    rw [followMatching]
    dsimp only
    split
    · exact hlook
    split
    · exact ih (followImport_budgetSpent.trans hlook)
    · exact ih hlook

theorem followFile_spent {file : File} {s s' : Run Symbol File Name Kind κ} (hspent : s.budgetSpent = true)
    (h : followFile L req depth file s = some s') : s'.budgetSpent = true := by
  rw [followFile] at h
  split at h
  · exact followCached_spent hspent h
  · dsimp only at h
    split at h
    · cases h
      exact followMatching_spent hspent
    · cases h
      exact followMatching_spent hspent

theorem followFiles_spent {files : List File} : ∀ {s s' : Run Symbol File Name Kind κ}, s.budgetSpent = true →
    followFiles L req depth files s = some s' → s'.budgetSpent = true := by
  induction files with
  | nil =>
    intro s s' hspent h
    cases h
    exact hspent
  | cons file rest ih =>
    intro s s' hspent h
    rw [followFiles] at h
    split at h
    · exact ih hspent h
    dsimp only at h
    have hadmission : (admitFile L req { s with visitedFiles := s.visitedFiles ++ [file] }).2.budgetSpent = true :=
      admitFile_spent (.inl hspent)
    split at h
    · cases h
      exact hadmission
    · obtain ⟨s₁, hs₁, hrest⟩ := Option.bind_eq_some_iff.mp h
      exact ih (followFile_spent hadmission hs₁) hrest

end Spent

section Following

variable {Symbol File Name Kind κ : Type} {L : Lookup Symbol File Name Kind κ} {E : Evidence Symbol File Name Kind}
  {req : ImpactRequest Symbol File} {Q : File → Prop} {R : κ → Bool → Prop} {free : Prop} {depth : Nat}
  {s : Run Symbol File Name Kind κ} {b : Bool}

theorem Coherent.originFiles (h : Coherent L E req Q R) : originFiles E.lookup req = originFiles L req := by
  rw [Impact.originFiles, Impact.originFiles, h.filePath]
  rfl

theorem Coherent.walkImports (h : Coherent L E req Q R) : walkImports E.lookup req = walkImports L req := by
  rw [Impact.walkImports, Impact.walkImports, h.fileImports]
  rfl

theorem Budget.Sane.look {b : Budget} (h : b.Sane) : b.overDeadline.2.Sane ∧
    (b.overDeadline.1 = true ∨ b.exhausted = true → b.overDeadline.2.exhausted = true) := by
  unfold Budget.overDeadline
  split
  · rename_i hhit
    exact ⟨h, fun _ => h hhit⟩
  split
  · exact ⟨fun _ => rfl, fun _ => rfl⟩
  · exact ⟨h, fun hex => hex.resolve_left nofun⟩

theorem bare_lookAt (s : Run Symbol File Name Kind κ) (b : Bool) (index : Nat) :
    lookAt (s.bare b) index = (false, s.bare b) := by
  unfold lookAt
  split <;> rfl

/-- A look at the clock, unless it is the last one. -/
theorem Fine.lookAt (h : Fine R free s b) (index : Nat) :
    ((lookAt s index).1 = false ∧ Fine R free (lookAt s index).2 b ∧ (lookAt s index).2.bare b = s.bare b) ∨
      ¬free ∧ (lookAt s index).1 = true := by
  unfold Impact.lookAt
  split
  · split
    · rename_i hbudget
      have hnot : ¬free := fun hfree => by
        rw [h.free hfree] at hbudget
        cases hbudget
      split
      · exact .inr ⟨hnot, rfl⟩
      · refine .inl ⟨rfl, ⟨h.cache, fun hfree => absurd hfree hnot, h.unspent, fun budget hb => ?_⟩, rfl⟩
        cases hb
        exact (h.sane _ hbudget).look.1
    · exact .inl ⟨rfl, h, rfl⟩
  · exact .inl ⟨rfl, h, rfl⟩

theorem admitFile_bare (s : Run Symbol File Name Kind κ) (b : Bool) :
    admitFile E.lookup req (s.bare b) = (true, s.bare b) := rfl

theorem Fine.admitFile (h : Fine R free s b) :
    ((admitFile L req s).1 = true ∧ Fine R free (admitFile L req s).2 b ∧ (admitFile L req s).2.bare b = s.bare b) ∨
      ¬free ∧ (admitFile L req s).1 = false := by
  unfold Impact.admitFile
  split
  · exact .inl ⟨rfl, h, rfl⟩
  · rename_i hbudget
    have hnot : ¬free := fun hfree => by
      rw [h.free hfree] at hbudget
      cases hbudget
    dsimp only
    split
    · exact .inr ⟨hnot, rfl⟩
    split
    · exact .inr ⟨hnot, rfl⟩
    split
    · exact .inr ⟨hnot, rfl⟩
    · refine .inl ⟨rfl, ⟨h.cache, fun hfree => absurd hfree hnot, h.unspent, fun budget hb => ?_⟩, rfl⟩
      cases hb
      exact (h.sane _ hbudget).look.1

variable [DecidableEq File] [DecidableEq Name] [DecidableEq Kind]

theorem follow_bare {push : Bool} {reason : Reason Name Kind} {r : Reference File Name Kind} :
    follow req depth push reason (s.bare b) r = (follow req depth push reason s r).bare b := by
  unfold follow
  dsimp only
  split <;> rfl

theorem Fine.follow (h : Fine R free s b) {push : Bool} {reason : Reason Name Kind} {r : Reference File Name Kind} :
    Fine R free (follow req depth push reason s r) b := by
  unfold Impact.follow
  dsimp only
  split <;> exact ⟨h.cache, h.free, h.unspent, h.sane⟩

theorem followReference_bare (hL : Coherent L E req Q R) {x : Symbol} {r : Reference File Name Kind} :
    followReference E.lookup req depth x (s.bare b) r = (followReference L req depth x s r).bare b := by
  unfold followReference
  rw [hL.originFiles, hL.name]
  split
  · rfl
  · exact follow_bare

theorem Fine.followReference (h : Fine R free s b) {x : Symbol} {r : Reference File Name Kind} :
    Fine R free (followReference L req depth x s r) b := by
  unfold Impact.followReference
  split
  · exact h
  · exact h.follow

theorem followImport_bare (hL : Coherent L E req Q R) {r : Reference File Name Kind} :
    followImport E.lookup req depth (s.bare b) r = (followImport L req depth s r).bare b := by
  unfold followImport
  rw [hL.originFiles]
  split
  · rfl
  · rw [follow_bare]
    rfl

theorem Fine.followImport (h : Fine R free s b) {r : Reference File Name Kind} :
    Fine R free (followImport L req depth s r) b := by
  unfold Impact.followImport
  split
  · exact h
  · exact ⟨h.follow.cache, h.follow.free, h.follow.unspent, h.follow.sane⟩

theorem followRows_bare (hL : Coherent L E req Q R) {x : Symbol} {rows : List (Reference File Name Kind)} :
    ∀ {s : Run Symbol File Name Kind κ}, Fine R free s b →
      rows.foldl (followReference E.lookup req depth x) (s.bare b) =
        (rows.foldl (followReference L req depth x) s).bare b ∧
      Fine R free (rows.foldl (followReference L req depth x) s) b := by
  induction rows with
  | nil => exact fun h => ⟨rfl, h⟩
  | cons r rest ih =>
    intro s h
    rw [List.foldl_cons, List.foldl_cons, followReference_bare hL]
    exact ih h.followReference

theorem followLevel_bare (hL : Coherent L E req Q R) {level : List (Symbol × List (Reference File Name Kind))} :
    ∀ {s : Run Symbol File Name Kind κ}, Fine R free s b →
      followLevel E.lookup req depth level (s.bare b) = (followLevel L req depth level s).bare b ∧
      Fine R free (followLevel L req depth level s) b := by
  induction level with
  | nil => exact fun h => ⟨rfl, h⟩
  | cons row rest ih =>
    intro s h
    obtain ⟨hrow, hfine⟩ : row.2.foldl (followReference E.lookup req depth row.1) (s.bare b) = _ ∧ _ :=
      followRows_bare hL h
    rw [followLevel, followLevel, List.foldl_cons, List.foldl_cons, hrow]
    exact ih hfine

/-- All the imports matched and followed by both, unless the budget is spent. -/
theorem followMatching_agree (hL : Coherent L E req Q R) {file : File} {imports : List (Reference File Name Kind)} :
    ∀ {index : Nat} {s : Run Symbol File Name Kind κ} {b : Bool}, Fine R free s b →
      ((followMatching E.lookup req depth file imports index (s.bare b)).2 =
          (followMatching L req depth file imports index s).2.bare b ∧
        Fine R free (followMatching L req depth file imports index s).2 b ∧
        (followMatching L req depth file imports index s).1 = matchRows E file imports index) ∨
      ¬free ∧ (followMatching L req depth file imports index s).2.budgetSpent = true := by
  induction imports with
  | nil => exact fun h => .inl ⟨rfl, h, rfl⟩
  | cons r rest ih =>
    intro index s b h
    have hpure : followMatching E.lookup req depth file (r :: rest) index (s.bare b) =
        if E.targetsFile r file then
          (index :: (followMatching E.lookup req depth file rest (index + 1)
            (followImport E.lookup req depth (s.bare b) r)).1,
          (followMatching E.lookup req depth file rest (index + 1)
            (followImport E.lookup req depth (s.bare b) r)).2)
        else followMatching E.lookup req depth file rest (index + 1) (s.bare b) := by
      rw [followMatching, bare_lookAt]
      rfl
    rcases h.lookAt index with ⟨hhit, hlook, hsame⟩ | ⟨hnot, hstop⟩
    · obtain ⟨hmatch, hcache⟩ := hL.targetsFile _ _ r file hlook.cache
      have hfine : Fine R free { (lookAt s index).2 with cache := (L.targetsFile (lookAt s index).2.cache r file).2 } b :=
        ⟨hcache, hlook.free, hlook.unspent, hlook.sane⟩
      have hbare : Run.bare { (lookAt s index).2 with cache := (L.targetsFile (lookAt s index).2.cache r file).2 } b =
          s.bare b := hsame
      rw [hpure, followMatching, matchRows]
      dsimp only
      rw [hhit, if_neg Bool.false_ne_true, hmatch]
      split
      · rw [← hbare, followImport_bare hL]
        rcases ih hfine.followImport with ⟨hnext, hok, hrows⟩ | hspent
        · exact .inl ⟨hnext, hok, by rw [hrows]⟩
        · exact .inr hspent
      · rw [← hbare]
        exact ih hfine
    · refine .inr ⟨hnot, ?_⟩
      rw [followMatching]
      dsimp only
      rw [hstop, if_pos rfl]
      exact lookAt_spent (.inr hstop)

/-- The rows of the cache followed by one, all the imports matched by the other. -/
theorem followCached_agree (hL : Coherent L E req Q R) {file : File} {rest : List (Reference File Name Kind)} :
    ∀ {pre : List (Reference File Name Kind)} {index index' : Nat} {s : Run Symbol File Name Kind κ} {b : Bool},
      walkImports L req = pre ++ rest → Fine R free s b →
      Agree R free (followCached L req depth (matchRows E file rest pre.length) index s)
        (some (followMatching E.lookup req depth file rest index' (s.bare b)).2) := by
  induction rest with
  | nil => exact fun _ h => .inl ⟨_, _, rfl, rfl, h⟩
  | cons r rest ih =>
    intro pre index index' s b himports h
    have hpure : followMatching E.lookup req depth file (r :: rest) index' (s.bare b) =
        if E.targetsFile r file then
          (index' :: (followMatching E.lookup req depth file rest (index' + 1)
            (followImport E.lookup req depth (s.bare b) r)).1,
          (followMatching E.lookup req depth file rest (index' + 1)
            (followImport E.lookup req depth (s.bare b) r)).2)
        else followMatching E.lookup req depth file rest (index' + 1) (s.bare b) := by
      rw [followMatching, bare_lookAt]
      rfl
    have himports' : walkImports L req = (pre ++ [r]) ++ rest := by rw [himports, List.append_assoc, List.singleton_append]
    have hlength : (pre ++ [r]).length = pre.length + 1 := by rw [List.length_append, List.length_singleton]
    rw [hpure, matchRows]
    split
    · rw [followCached]
      rcases h.lookAt index with ⟨hhit, hlook, hsame⟩ | ⟨hnot, hstop⟩
      · rw [hhit, if_neg Bool.false_ne_true]
        have hrow : (walkImports L req)[pre.length]? = some r := by
          rw [himports, List.getElem?_append_right (Nat.le_refl _), Nat.sub_self]
          rfl
        simp only [hrow]
        rw [← hsame, followImport_bare hL, ← hlength]
        exact ih himports' hlook.followImport
      · rw [hstop, if_pos rfl]
        refine .inr ⟨hnot, fun s' hs' => ?_⟩
        cases hs'
        exact lookAt_spent (.inr hstop)
    · rw [← hlength]
      exact ih himports' h

theorem followFile_agree (hL : Coherent L E req Q R) {file : File} (hfile : Q file) (h : Fine R free s b) :
    Agree R free (followFile L req depth file s) (followFile E.lookup req depth file (s.bare b)) := by
  have hpure : followFile E.lookup req depth file (s.bare b) =
      some (followMatching E.lookup req depth file (walkImports E.lookup req) 0 (s.bare b)).2 := by
    have hfile : followFile E.lookup req depth file (s.bare b) =
        if (followMatching E.lookup req depth file (walkImports E.lookup req) 0 (s.bare b)).2.budgetSpent then
          some (followMatching E.lookup req depth file (walkImports E.lookup req) 0 (s.bare b)).2
        else some (followMatching E.lookup req depth file (walkImports E.lookup req) 0 (s.bare b)).2 := rfl
    rw [hfile, ite_self]
  rw [hpure, followFile]
  cases hcached : L.cachedMatches s.cache file with
  | some rows =>
    obtain rfl := hL.cached _ _ file rows hfile h.cache hcached
    have himports : walkImports L req = [] ++ walkImports E.lookup req := by rw [hL.walkImports, List.nil_append]
    exact followCached_agree hL himports h
  | none =>
    dsimp only
    rw [hL.walkImports]
    rcases followMatching_agree hL h with ⟨hnext, hok, hrows⟩ | ⟨hnot, hspent⟩
    · refine .inl ⟨_, b, if_neg (by rw [hok.unspent]; exact Bool.false_ne_true), ?_, ?_⟩
      · rw [hnext]
        rfl
      · have hremembered := hL.remembered _ _ file hfile hok.cache
        rw [hL.walkImports] at hremembered
        refine ⟨?_, hok.free, hok.unspent, hok.sane⟩
        rw [hrows]
        exact hremembered
    · refine .inr ⟨hnot, fun s' hs' => ?_⟩
      rw [if_pos hspent] at hs'
      cases hs'
      exact hspent

theorem followFiles_agree (hL : Coherent L E req Q R) {files : List File} (hfiles : ∀ f ∈ files, Q f) :
    ∀ {s : Run Symbol File Name Kind κ} {b : Bool}, Fine R free s b →
      Agree R free (followFiles L req depth files s) (followFiles E.lookup req depth files (s.bare b)) := by
  induction files with
  | nil => exact fun h => .inl ⟨_, _, rfl, rfl, h⟩
  | cons file rest ih =>
    intro s b h
    have ih := @ih fun f hf => hfiles f (List.mem_cons_of_mem _ hf)
    by_cases hfile : file ∈ s.visitedFiles
    · have hpure : followFiles E.lookup req depth (file :: rest) (s.bare b) =
          followFiles E.lookup req depth rest (s.bare b) := by
        rw [followFiles, if_pos]
        exact hfile
      rw [hpure, followFiles, if_pos hfile]
      exact ih h
    · have hmark : Fine R free { s with visitedFiles := s.visitedFiles ++ [file] } b :=
        ⟨h.cache, h.free, h.unspent, h.sane⟩
      have hpure : followFiles E.lookup req depth (file :: rest) (s.bare b) =
          (followFile E.lookup req depth file (Run.bare { s with visitedFiles := s.visitedFiles ++ [file] } b)).bind
            (followFiles E.lookup req depth rest) := by
        rw [followFiles, if_neg]
        · rfl
        · exact hfile
      rw [hpure, followFiles, if_neg hfile]
      dsimp only
      have hadmission : _ ∨ ¬free ∧ (admitFile L req { s with visitedFiles := s.visitedFiles ++ [file] }).1 = false :=
        hmark.admitFile
      rcases hadmission with ⟨hpaid, hadmission, hsame⟩ | ⟨hnot, hrefused⟩
      · rw [hpaid, Bool.not_true, if_neg Bool.false_ne_true, ← hsame]
        have hone : Agree R free (followFile L req depth file _) (followFile E.lookup req depth file _) :=
          followFile_agree hL (hfiles file (List.mem_cons_self ..)) hadmission
        rcases hone with ⟨s₁, b₁, hs₁, ht₁, hok⟩ | ⟨hnot, hspent⟩
        · rw [hs₁, ht₁, Option.bind_some, Option.bind_some]
          exact ih hok
        · refine .inr ⟨hnot, fun s' hs' => ?_⟩
          obtain ⟨s₁, hs₁, hrest⟩ := Option.bind_eq_some_iff.mp hs'
          exact followFiles_spent (hspent s₁ hs₁) hrest
      · rw [hrefused, Bool.not_false, if_pos rfl]
        refine .inr ⟨hnot, fun s' hs' => ?_⟩
        cases hs'
        exact admitFile_spent (.inr hrefused)

end Following

section Loading

variable {Symbol File Name Kind κ : Type} [DecidableEq Symbol]

/-- The positions of the symbols that are new. -/
def newRows : List Symbol → Nat → List Symbol → List Nat
  | [], _, _ => []
  | x :: rest, idx, visited =>
    if x ∈ visited then newRows rest (idx + 1) visited else idx :: newRows rest (idx + 1) (visited ++ [x])

theorem le_of_mem_newRows {frontier : List Symbol} : ∀ {idx : Nat} {visited : List Symbol} {i : Nat},
    i ∈ newRows frontier idx visited → idx ≤ i := by
  induction frontier with
  | nil => exact fun h => nomatch h
  | cons x rest ih =>
    intro idx visited i h
    rw [newRows] at h
    split at h
    · exact (Nat.le_succ idx).trans (ih h)
    · rcases List.mem_cons.mp h with rfl | h
      · exact Nat.le_refl _
      · exact (Nat.le_succ idx).trans (ih h)

variable {L : Lookup Symbol File Name Kind κ} {E : Evidence Symbol File Name Kind} {req : ImpactRequest Symbol File}
  {Q : File → Prop} {R : κ → Bool → Prop}

/-- A budget that was not exhausted in pricing has priced every symbol that is new. -/
theorem price_new {frontier : List Symbol} : ∀ {idx : Nat} {b : Budget} {visited : List Symbol}, b.Sane →
    (price L frontier idx b visited).2.1.Sane ∧ ((price L frontier idx b visited).2.1.exhausted = false →
      b.exhausted = false ∧ (price L frontier idx b visited).1.map Prod.snd = newRows frontier idx visited ∧
      ∀ c, (loadAll L frontier visited c).2.1 = (price L frontier idx b visited).2.2) := by
  induction frontier with
  | nil => exact fun h => ⟨h, fun hex => ⟨hex, rfl, fun _ => rfl⟩⟩
  | cons x rest ih =>
    intro idx b visited h
    have hlook : (if idx % 256 = 0 then b.overDeadline else (false, b)).2.Sane ∧
        ((if idx % 256 = 0 then b.overDeadline else (false, b)).1 = true ∨ b.exhausted = true →
          (if idx % 256 = 0 then b.overDeadline else (false, b)).2.exhausted = true) := by
      split
      · exact h.look
      · exact ⟨h, fun hex => hex.resolve_left nofun⟩
    rw [price]
    generalize (if idx % 256 = 0 then b.overDeadline else (false, b)) = look at hlook
    obtain ⟨hsane, hspent⟩ := hlook
    have hfresh : look.2.exhausted = false → b.exhausted = false := fun hex => Bool.eq_false_iff.mpr fun hb => by
      rw [hspent (.inr hb)] at hex
      cases hex
    dsimp only
    split
    · rename_i hstop
      refine ⟨hsane, fun hex => ?_⟩
      rw [hspent (.inl hstop)] at hex
      cases hex
    split
    · rename_i hold
      obtain ⟨hrest, hall⟩ := @ih (idx + 1) look.2 visited hsane
      refine ⟨hrest, fun hex => ?_⟩
      obtain ⟨hb, hrows, hvisited⟩ := hall hex
      refine ⟨hfresh hb, ?_, fun c => ?_⟩
      · rw [newRows, if_pos hold]
        exact hrows
      · rw [loadAll, if_pos hold]
        exact hvisited c
    · rename_i hnew
      obtain ⟨hrest, hall⟩ := @ih (idx + 1) look.2 (visited ++ [x]) hsane
      refine ⟨hrest, fun hex => ?_⟩
      obtain ⟨hb, hrows, hvisited⟩ := hall hex
      refine ⟨hfresh hb, ?_, fun c => ?_⟩
      · rw [newRows, if_neg hnew, List.map_cons, hrows]
      · rw [loadAll, if_neg hnew]
        exact hvisited _

theorem admitPriced_all {l : List (Nat × Nat)} : ∀ {b : Budget}, b.Sane → (admitPriced l b).2.Sane ∧
    ((admitPriced l b).2.exhausted = false → b.exhausted = false ∧ (admitPriced l b).1 = l.map Prod.snd) := by
  induction l with
  | nil => exact fun h => ⟨h, fun hex => ⟨hex, rfl⟩⟩
  | cons row rest ih =>
    intro b h
    rw [admitPriced]
    split
    · exact ⟨fun _ => rfl, fun hex => nomatch hex⟩
    · obtain ⟨hsane, hall⟩ := ih (b := b.charge row.1) h
      refine ⟨hsane, fun hex => ?_⟩
      obtain ⟨hb, hrest⟩ := hall hex
      refine ⟨hb, ?_⟩
      dsimp only
      rw [hrest, List.map_cons]

omit [DecidableEq Symbol] in
theorem load_sane {admitted : List Nat} {frontier : List Symbol} : ∀ {idx : Nat} {b : Budget} {c : κ}, b.Sane →
    (load L admitted frontier idx b c).2.1.Sane ∧
      ((load L admitted frontier idx b c).2.1.exhausted = false → b.exhausted = false) := by
  induction frontier with
  | nil => exact fun h => ⟨h, id⟩
  | cons x rest ih =>
    intro idx b c h
    obtain ⟨hsane, hspent⟩ := h.look
    have hfresh : b.overDeadline.2.exhausted = false → b.exhausted = false := fun hex => Bool.eq_false_iff.mpr fun hb => by
      rw [hspent (.inr hb)] at hex
      cases hex
    rw [load]
    split
    · exact ih h
    dsimp only
    split
    · exact ⟨hsane, hfresh⟩
    · obtain ⟨hrest, hall⟩ := ih (c := (L.references c x).2) hsane
      exact ⟨hrest, fun hex => hfresh (hall hex)⟩

/-- A budget that was not exhausted in loading has loaded what a level without one does. -/
theorem load_all {admitted : List Nat} {frontier : List Symbol} : ∀ {idx : Nat} {b : Budget} {visited : List Symbol} {c : κ},
    b.Sane → (∀ i, idx ≤ i → (i ∈ admitted ↔ i ∈ newRows frontier idx visited)) →
    (load L admitted frontier idx b c).2.1.exhausted = false →
      (load L admitted frontier idx b c).1 = (loadAll L frontier visited c).1 ∧
      (load L admitted frontier idx b c).2.2 = (loadAll L frontier visited c).2.2 := by
  induction frontier with
  | nil => exact fun _ _ _ => ⟨rfl, rfl⟩
  | cons x rest ih =>
    intro idx b visited c h hadmitted
    by_cases hold : x ∈ visited
    · have hskip : idx ∉ admitted := by
        rw [hadmitted idx (Nat.le_refl idx), newRows, if_pos hold]
        exact fun hmem => absurd (le_of_mem_newRows hmem) (Nat.not_succ_le_self idx)
      have hnext : ∀ i, idx + 1 ≤ i → (i ∈ admitted ↔ i ∈ newRows rest (idx + 1) visited) := fun i hi => by
        rw [hadmitted i (Nat.le_of_succ_le hi), newRows, if_pos hold]
      rw [load, if_pos hskip, loadAll, if_pos hold]
      exact ih h hnext
    · have htake : idx ∈ admitted := by
        rw [hadmitted idx (Nat.le_refl idx), newRows, if_neg hold]
        exact List.mem_cons_self ..
      have hnext : ∀ i, idx + 1 ≤ i → (i ∈ admitted ↔ i ∈ newRows rest (idx + 1) (visited ++ [x])) := fun i hi => by
        rw [hadmitted i (Nat.le_of_succ_le hi), newRows, if_neg hold, List.mem_cons, or_iff_right (Nat.ne_of_gt hi)]
      obtain ⟨hsane, hspent⟩ := h.look
      rw [load, if_neg (not_not_intro htake), loadAll, if_neg hold]
      dsimp only
      split
      · rename_i hstop
        intro hex
        rw [hspent (.inl hstop)] at hex
        cases hex
      · intro hex
        obtain ⟨hrows, hcache⟩ := ih hsane hnext hex
        exact ⟨by rw [hrows], hcache⟩

theorem loadAll_agree (hL : Coherent L E req Q R) (frontier : List Symbol) : ∀ (visited : List Symbol) {c : κ} {b : Bool},
    R c b → ∃ b', loadAll E.lookup frontier visited b =
      ((loadAll L frontier visited c).1, (loadAll L frontier visited c).2.1, b') ∧
      R (loadAll L frontier visited c).2.2 b' := by
  induction frontier with
  | nil => exact fun _ {_ _} h => ⟨_, rfl, h⟩
  | cons x rest ih =>
    intro visited c b h
    rw [loadAll, loadAll]
    by_cases hold : x ∈ visited
    · rw [if_pos hold, if_pos hold]
      exact ih visited h
    · obtain ⟨hrows, hcache⟩ := hL.references c b x h
      obtain ⟨b', hrest, hR⟩ := ih (visited ++ [x]) hcache
      rw [if_neg hold, if_neg hold]
      refine ⟨b', ?_, hR⟩
      dsimp only
      rw [hrows]
      have hpure : (E.lookup.references b x) = (E.references x, b || E.contextCapped x) := rfl
      rw [hpure]
      dsimp only
      rw [hrest]

/-- The same rows are loaded, unless the budget is spent. -/
theorem loadLevel_agree (hL : Coherent L E req Q R) {free : Prop} (frontier : List Symbol)
    {s : Run Symbol File Name Kind κ} {b : Bool} (h : Fine R free s b) :
    (∃ b', loadLevel E.lookup (s.bare b) frontier =
        ((loadLevel L s frontier).1, (loadLevel L s frontier).2.bare b') ∧ Fine R free (loadLevel L s frontier).2 b') ∨
      ¬free ∧ (loadLevel L s frontier).2.budgetSpent = true := by
  obtain ⟨b', hall, hcache⟩ := loadAll_agree hL frontier s.visitedSymbols h.cache
  have hpure : loadLevel E.lookup (s.bare b) frontier = ((loadAll E.lookup frontier s.visitedSymbols b).1,
      { s.bare b with
        cache := (loadAll E.lookup frontier s.visitedSymbols b).2.2
        visitedSymbols := (loadAll E.lookup frontier s.visitedSymbols b).2.1 }) := rfl
  rw [hpure, hall]
  unfold loadLevel
  cases hbudget : s.budget with
  | none => exact .inl ⟨b', rfl, hcache, fun _ => rfl, h.unspent, nofun⟩
  | some budget =>
    have hnot : ¬free := fun hfree => by
      rw [h.free hfree] at hbudget
      cases hbudget
    dsimp only
    obtain ⟨hsane, hpriced⟩ : (price L frontier 0 budget s.visitedSymbols).2.1.Sane ∧ _ := price_new (h.sane budget hbudget)
    generalize price L frontier 0 budget s.visitedSymbols = priced at *
    have hperm : ∀ i, i ∈ (priced.1.insertionSort fun a b => pairLe a b).map Prod.snd ↔ i ∈ priced.1.map Prod.snd :=
      fun i => ((List.perm_insertionSort _ priced.1).map Prod.snd).mem_iff
    obtain ⟨hsane', hadmitted⟩ := admitPriced_all (l := priced.1.insertionSort fun a b => pairLe a b) hsane
    generalize admitPriced (priced.1.insertionSort fun a b => pairLe a b) priced.2.1 = admitted at *
    cases hex : (load L admitted.1 frontier 0 admitted.2 s.cache).2.1.exhausted with
    | true => exact .inr ⟨hnot, rfl⟩
    | false =>
      obtain ⟨hsane'', hbefore⟩ : (load L admitted.1 frontier 0 admitted.2 s.cache).2.1.Sane ∧ _ := load_sane hsane'
      obtain ⟨hb', hall'⟩ := hadmitted (hbefore hex)
      obtain ⟨hb, hrows, hvisited⟩ := hpriced hb'
      have hrowsOf : ∀ i, 0 ≤ i → (i ∈ admitted.1 ↔ i ∈ newRows frontier 0 s.visitedSymbols) := fun i _ => by
        rw [hall', hperm, hrows]
      obtain ⟨hlevel, hcache'⟩ := load_all hsane' hrowsOf hex
      refine .inl ⟨b', ?_, ?_, fun hfree => absurd hfree hnot, rfl, fun budget' hb' => ?_⟩
      · rw [hlevel, hvisited]
        rfl
      · dsimp only
        rw [hcache']
        exact hcache
      · cases hb'
        exact hsane''

end Loading

section Levels

variable {Symbol File Name Kind κ : Type} [DecidableEq Symbol] [LinearOrder File] {L : Lookup Symbol File Name Kind κ}
  {E : Evidence Symbol File Name Kind} {req : ImpactRequest Symbol File} {Q : File → Prop} {R : κ → Bool → Prop} {free : Prop}
  {maxFrontier depth : Nat}

theorem cutFrontiers_bare (hL : Coherent L E req Q R) (s : Run Symbol File Name Kind κ) (b : Bool) :
    cutFrontiers E.lookup maxFrontier (s.bare b) =
      ((cutFrontiers L maxFrontier s).1.bare b, (cutFrontiers L maxFrontier s).2) := by
  have hsymbols : nextFrontier L s.pendingCallers = nextFrontier E.lookup s.pendingCallers := by
    rw [nextFrontier, nextFrontier, hL.owner]
    rfl
  rw [cutFrontiers, cutFrontiers, hsymbols]
  rfl

theorem cut_agree (hL : Coherent L E req Q R) {s t : Run Symbol File Name Kind κ} {b : Bool} (h : Fine R free t b)
    (hbare : t.bare b = s.bare b) :
    (if (cutFrontiers E.lookup maxFrontier (s.bare b)).2.1.isEmpty &&
        (cutFrontiers E.lookup maxFrontier (s.bare b)).2.2.isEmpty then
      ((cutFrontiers E.lookup maxFrontier (s.bare b)).1, none)
    else ((cutFrontiers E.lookup maxFrontier (s.bare b)).1, some (cutFrontiers E.lookup maxFrontier (s.bare b)).2)) =
      ((if (cutFrontiers L maxFrontier t).2.1.isEmpty && (cutFrontiers L maxFrontier t).2.2.isEmpty then
          ((cutFrontiers L maxFrontier t).1, none)
        else ((cutFrontiers L maxFrontier t).1, some (cutFrontiers L maxFrontier t).2)).1.bare b,
      (if (cutFrontiers L maxFrontier t).2.1.isEmpty && (cutFrontiers L maxFrontier t).2.2.isEmpty then
          ((cutFrontiers L maxFrontier t).1, none)
        else ((cutFrontiers L maxFrontier t).1, some (cutFrontiers L maxFrontier t).2)).2) ∧
    Fine R free (if (cutFrontiers L maxFrontier t).2.1.isEmpty && (cutFrontiers L maxFrontier t).2.2.isEmpty then
        ((cutFrontiers L maxFrontier t).1, none)
      else ((cutFrontiers L maxFrontier t).1, some (cutFrontiers L maxFrontier t).2)).1 b := by
  rw [← hbare, cutFrontiers_bare hL]
  split
  · exact ⟨rfl, h.cache, h.free, h.unspent, h.sane⟩
  · exact ⟨rfl, h.cache, h.free, h.unspent, h.sane⟩

/-- A level ends alike, or the run is capped and over. -/
theorem endLevel_agree (hL : Coherent L E req Q R) {s : Run Symbol File Name Kind κ} {b : Bool} (h : Fine R free s b) :
    (endLevel E.lookup maxFrontier (s.bare b) =
        ((endLevel L maxFrontier s).1.bare b, (endLevel L maxFrontier s).2) ∧
      Fine R free (endLevel L maxFrontier s).1 b) ∨
    ¬free ∧ (endLevel L maxFrontier s).1.frontierCapped = true ∧ (endLevel L maxFrontier s).2 = none := by
  rw [endLevel_eq rfl rfl, endLevel, h.unspent, if_neg Bool.false_ne_true]
  by_cases hempty : (s.pendingCallers.isEmpty && s.nextFiles.isEmpty) = true
  · have hempty' : ((s.bare b).pendingCallers.isEmpty && (s.bare b).nextFiles.isEmpty) = true := hempty
    rw [if_pos hempty, if_pos hempty']
    exact .inl ⟨rfl, h⟩
  · have hempty' : ¬((s.bare b).pendingCallers.isEmpty && (s.bare b).nextFiles.isEmpty) = true := hempty
    rw [if_neg hempty, if_neg hempty']
    cases hbudget : s.budget with
    | none =>
      have hfine : Fine R free { s with budget := none, budgetSpent := false } b :=
        ⟨h.cache, fun _ => rfl, rfl, by rintro _ ⟨⟩⟩
      exact .inl (cut_agree hL hfine rfl)
    | some budget =>
      have hnot : ¬free := fun hfree => by
        rw [h.free hfree] at hbudget
        cases hbudget
      dsimp only
      by_cases hdead : budget.overDeadline.1 = true
      · simp only [if_pos hdead]
        exact .inr ⟨hnot, trivial, trivial⟩
      · simp only [if_neg hdead]
        have hfine : Fine R free { s with budget := some budget.overDeadline.2, budgetSpent := false } b := by
          refine ⟨h.cache, fun hfree => absurd hfree hnot, rfl, fun budget' hb' => ?_⟩
          cases hb'
          exact (h.sane budget hbudget).look.1
        exact .inl (cut_agree hL hfine rfl)

variable [DecidableEq Name] [DecidableEq Kind]

theorem walkLevel_agree (hL : Coherent L E req Q R) {frontier : List Symbol} {files : List File}
    (hfiles : ∀ f ∈ files, Q f) {s : Run Symbol File Name Kind κ} {b : Bool} (h : Fine R free s b) :
    (∃ s' b' next, walkLevel L req maxFrontier depth s frontier files = some (s', next) ∧
      walkLevel E.lookup req maxFrontier depth (s.bare b) frontier files = some (s'.bare b', next) ∧ Fine R free s' b') ∨
    ¬free ∧ ∀ s' next, walkLevel L req maxFrontier depth s frontier files = some (s', next) →
      s'.frontierCapped = true ∧ next = none := by
  have hfine : Fine R free { s with nextFiles := [], pendingCallers := [], budgetSpent := false } b :=
    ⟨h.cache, h.free, rfl, h.sane⟩
  have hpure : walkLevel E.lookup req maxFrontier depth (s.bare b) frontier files =
      (followFiles E.lookup req depth files (followLevel E.lookup req depth
        (loadLevel E.lookup (Run.bare { s with nextFiles := [], pendingCallers := [], budgetSpent := false } b) frontier).1
        (loadLevel E.lookup (Run.bare { s with nextFiles := [], pendingCallers := [], budgetSpent := false } b) frontier).2)).map
        (endLevel E.lookup maxFrontier) := rfl
  have hspent : ∀ x : Option (Run Symbol File Name Kind κ), (∀ s', x = some s' → s'.budgetSpent = true) →
      ∀ s' next, x.map (endLevel L maxFrontier) = some (s', next) → s'.frontierCapped = true ∧ next = none := by
    intro x hx s' next hs'
    obtain ⟨s₁, hs₁, hend⟩ := Option.map_eq_some_iff.mp hs'
    rw [endLevel, if_pos (hx s₁ hs₁)] at hend
    cases hend
    exact ⟨rfl, rfl⟩
  rw [hpure, walkLevel]
  rcases loadLevel_agree hL frontier hfine with ⟨b₁, hload, hloaded⟩ | ⟨hnot, hover⟩
  · rw [hload]
    dsimp only
    obtain ⟨hlevel, hfollowed⟩ : followLevel E.lookup req depth _ _ = _ ∧ _ := followLevel_bare hL hloaded
    rw [hlevel]
    rcases followFiles_agree hL hfiles hfollowed with ⟨s₂, b₂, hs₂, ht₂, hok⟩ | ⟨hnot, hover⟩
    · rw [hs₂, ht₂, Option.map_some, Option.map_some]
      rcases endLevel_agree hL hok with ⟨hend, hdone⟩ | ⟨hnot, hcapped, hover⟩
      · exact .inl ⟨(endLevel L maxFrontier s₂).1, b₂, (endLevel L maxFrontier s₂).2, rfl, congrArg some hend, hdone⟩
      · refine .inr ⟨hnot, fun s' next hs' => ?_⟩
        rw [Option.some_inj, Prod.ext_iff] at hs'
        exact ⟨(congrArg Run.frontierCapped hs'.1).symm.trans hcapped, hs'.2.symm.trans hover⟩
    · exact .inr ⟨hnot, hspent _ hover⟩
  · exact .inr ⟨hnot, hspent _ fun s' hs' => followFiles_spent (followLevel_budgetSpent.trans hover) hs'⟩

/-- The levels left: both runs go through the same states, or the first is capped. -/
theorem walkLevels_agree (hL : Coherent L E req Q R)
    (hQ : ∀ k < depth32 req, ∀ f, AtStep E req req.fileForm k (.file f) → Q f) : ∀ {left k : Nat} {frontier : List Symbol}
    {files : List File} {s : Run Symbol File Name Kind κ} {b capped₀ : Bool} {P : File → Nat → Reason Name Kind → Prop},
    LevelInv E req capped₀ k (s.bare b) frontier files P → k + left = depth32 req → Fine R free s b →
    (∃ s' b', walkLevels L req maxFrontier left (k + 1) s frontier files = some s' ∧
      walkLevels E.lookup req maxFrontier left (k + 1) (s.bare b) frontier files = some (s'.bare b') ∧ Fine R free s' b') ∨
    ¬free ∧ ∀ s', walkLevels L req maxFrontier left (k + 1) s frontier files = some s' → s'.frontierCapped = true := by
  intro left
  induction left with
  | zero => exact fun _ _ h => .inl ⟨_, _, rfl, rfl, h⟩
  | succ left ih =>
    intro k frontier files s b capped₀ P hinv hk h
    have hfiles : ∀ f ∈ files, Q f := fun f hf => hQ k (by omega) f (hinv.reached (.file f) hf)
    rw [walkLevels, walkLevels]
    rcases walkLevel_agree hL hfiles h with ⟨s₁, b₁, next, hs₁, ht₁, hok⟩ | ⟨hnot, hcapped⟩
    · rw [hs₁, ht₁]
      cases next with
      | none => exact .inl ⟨s₁, b₁, rfl, rfl, hok⟩
      | some next =>
        obtain ⟨s₂, hlevel, hdone⟩ : ∃ s', walkLevel E.lookup req maxFrontier (k + 1) (s.bare b) frontier files = _ ∧
            LevelDone E req (k + 1) (s.bare b) frontier files s' := walkLevel_done
        obtain ⟨P', hinv', -⟩ := hdone.next maxFrontier hinv (by omega)
        have hend : endLevel E.lookup maxFrontier s₂ = (s₁.bare b₁, some next) :=
          Option.some_inj.mp (hlevel.symm.trans ht₁)
        rw [hend] at hinv'
        exact ih hinv' (by omega) hok
    · refine .inr ⟨hnot, fun s' hs' => ?_⟩
      cases hlevel : walkLevel L req maxFrontier (k + 1) s frontier files with
      | none =>
        rw [hlevel] at hs'
        cases hs'
      | some level =>
        obtain ⟨s₁, next⟩ := level
        obtain ⟨hs₁, rfl⟩ := hcapped s₁ next hlevel
        rw [hlevel] at hs'
        cases hs'
        exact hs₁

end Levels

end Impact
end Graph
end CodeSage
