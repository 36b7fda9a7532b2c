import CodeSage.Graph.RustModules
import CodeSage.Lib.Except

/-!
# CodeSage.Graph.RustModulesCorrect

What the roles of the Rust files are. `Role` is the specification: a chain of declarations leads from a target
root to the file, each naming just one indexed file. `takeOrder` is the order in which the pass over the direct
declarations takes the roots, whatever the walks find; `targets` are those not yet declared by a target then.

`from_imports_roles_iff` says that a file has the contexts of the selected targets, and that no selected target
is a module of another one just if the pass takes declaring roots before the roots they declare.
-/

namespace CodeSage
namespace Graph
namespace Rust

open Lib Lib.Kahn Lib.Greedy

section Specification

variable (files : List Text) (imports : List (Text × Text))

/-- A chain of declarations leads from the root to the file, under this path. -/
inductive Reached (root directory : Text) : Text → List Text → Prop where
  | root : Reached root directory root []
  | declared {file candidate declaration : Text} {path : List Text} :
      Reached root directory file path → declaration ∈ declarations files imports file →
      named files (directory ++ Segments.join (path ++ Segments.split declaration)) = some candidate →
      Reached root directory candidate (path ++ Segments.split declaration)

def Role (file : Text) (context : Module) : Prop :=
  (context.rootFile, context.rootDir) ∈ roots files ∧
    Reached files imports context.rootFile context.rootDir file context.path

/-- The target of `q` has `r` as a declared module. -/
def Declares (q r : Text) : Prop := ∃ context : Module, context.rootFile = q ∧ context.path ≠ [] ∧ Role files imports r context

/-- The target roots in the order in which the pass takes them. -/
def takeOrder (hash : Text → List Text → List Text) : List Text :=
  let names := (roots files).map Prod.fst
  match families files imports with
  | .ok family =>
    order (fun root => hash root (family.children root)) names (names.filter fun file => family.parents file = some 0)
      family.parents
  | .error _ => []

noncomputable def targets (hash : Text → List Text → List Text) : List Text :=
  choose (Declares files imports) (takeOrder files imports hash)

/-- The targets have at most as many contexts as the limit allows. -/
def Few (chosen : List Text) : Prop :=
  ∀ l : List (Text × Module), l.Nodup → (∀ e ∈ l, e.2.rootFile ∈ chosen ∧ Role files imports e.1 e.2) → l.length ≤ CONTEXTS

/-- The file is the root of a target in the result. -/
def Selected (result : RustModules) (root : Text) : Prop :=
  ∃ directory, { rootFile := root, rootDir := directory, path := [] } ∈ result.contexts root

/-- No selected target is a module of another one, unless the two declare each other. -/
def RolesApart (result : RustModules) : Prop :=
  ∀ q r, Selected result q → Selected result r → q ≠ r → Declares files imports q r → Declares files imports r q

/-- A root that is taken after one it declares is declared by that one too, or one of the two is a module of a
target taken before it. -/
def RootsInOrder (hash : Text → List Text → List Text) : Prop :=
  ∀ q r, Before (takeOrder files imports hash) r q → Declares files imports q r →
    Declares files imports r q ∨ CoveredBefore (Declares files imports) (takeOrder files imports hash) q ∨
      CoveredBefore (Declares files imports) (takeOrder files imports hash) r

end Specification

section Roots

variable {files : List Text} {imports : List (Text × Text)}

theorem mem_roots {root directory : Text} : (root, directory) ∈ roots files ↔ root ∈ files ∧ ImportPaths.rustCrateLayout root = some (directory, true) := by
  rw [roots, (List.perm_insertionSort _ _).mem_iff, List.mem_filterMap]
  constructor
  · rintro ⟨file, hfile, h⟩
    split at h
    · cases h
      exact ⟨hfile, ‹_›⟩
    · cases h
  · rintro ⟨hfile, h⟩
    exact ⟨root, hfile, by simp [h]⟩

theorem nodup_roots (hfiles : files.Nodup) : ((roots files).map Prod.fst).Nodup := by
  rw [roots, ((List.perm_insertionSort _ _).map Prod.fst).nodup_iff, List.map_filterMap]
  refine hfiles.filterMap fun a b c ha hb => ?_
  simp only [Option.mem_def, Option.map_eq_some_iff] at ha hb
  obtain ⟨⟨_, _⟩, ha, rfl⟩ := ha
  obtain ⟨⟨_, _⟩, hb, rfl⟩ := hb
  split at ha
  · cases ha
    split at hb
    · cases hb
      rfl
    · cases hb
  · cases ha

theorem lookup_roots {root : Text} (h : root ∈ (roots files).map Prod.fst) :
    ∃ directory, (roots files).lookup root = some directory ∧ (root, directory) ∈ roots files := by
  obtain ⟨entry, hmem, rfl⟩ := List.mem_map.mp h
  have hsome : ((roots files).lookup entry.1).isSome := List.lookup_isSome_iff.mpr ⟨entry, hmem, by simp⟩
  obtain ⟨directory, hlookup⟩ := Option.isSome_iff_exists.mp hsome
  refine ⟨directory, hlookup, ?_⟩
  obtain ⟨pre, post, hsplit, -⟩ := List.lookup_eq_some_iff.mp hlookup
  rw [hsplit]
  exact List.mem_append_right _ List.mem_cons_self

end Roots

section Families

variable {files : List Text} {imports : List (Text × Text)}

/-- Each counter is the number of parents, and the children are different roots. -/
structure Grown (names : List Text) (family : Family) : Prop where
  counter : ∀ c ∈ names, family.parents c = some (names.countP fun a => c ∈ family.children a)
  children : ∀ a, (family.children a).Nodup ∧ ∀ c ∈ family.children a, c ∈ names

/-- A new child has one parent more. -/
theorem countP_insert {names : List Text} {children : Text → List Text} {root candidate : Text} (hnames : names.Nodup)
    (hroot : root ∈ names) (hnew : candidate ∉ children root) :
    names.countP (fun a => candidate ∈ Function.update children root (children root ++ [candidate]) a) =
      names.countP (fun a => candidate ∈ children a) + 1 := by
  rw [countP_split hnames hroot, countP_split (p := fun a => candidate ∈ children a) hnames hroot]
  have hrest : ∀ a, (decide (candidate ∈ Function.update children root (children root ++ [candidate]) a) && decide (a ≠ root)) =
      (decide (candidate ∈ children a) && decide (a ≠ root)) := by
    intro a
    by_cases ha : a = root <;> simp [ha, Function.update_of_ne]
  simp only [hrest]
  simp [hnew]

/-- One more child of a root. -/
theorem Grown.insert {names : List Text} {family : Family} {root candidate : Text} (hnames : names.Nodup) (hroot : root ∈ names)
    (hcandidate : candidate ∈ names) (hnew : candidate ∉ family.children root) (h : Grown names family) :
    Grown names {
      parents := Function.update family.parents candidate (some (names.countP (fun a => candidate ∈ family.children a) + 1))
      children := Function.update family.children root (family.children root ++ [candidate]) } where
  counter := fun c hc => by
    by_cases hcc : c = candidate
    · subst hcc
      simp only [Function.update_self]
      rw [countP_insert hnames hroot hnew]
    · have hsame : ∀ a, c ∈ Function.update family.children root (family.children root ++ [candidate]) a ↔ c ∈ family.children a := by
        intro a
        by_cases ha : a = root <;> simp [ha, hcc, Function.update_of_ne]
      simp only [Function.update_of_ne hcc, hsame]
      exact h.counter c hc
  children := fun a => by
    obtain ⟨hnodup, hin⟩ := h.children a
    by_cases ha : a = root
    · subst ha
      simp only [Function.update_self]
      refine ⟨List.nodup_append.mpr ⟨hnodup, List.nodup_singleton _, ?_⟩, ?_⟩
      · rintro x hx y hy rfl
        rw [List.mem_singleton.mp hy] at hx
        exact hnew hx
      · intro c hc
        rcases List.mem_append.mp hc with hc | hc
        · exact hin c hc
        · rw [List.mem_singleton.mp hc]
          exact hcandidate
    · simp only [Function.update_of_ne ha]
      exact ⟨hnodup, hin⟩

theorem adopt_ok {root : Text × Text} {family : Family} (hfiles : files.Nodup) (hroot : root ∈ roots files)
    (h : Grown ((roots files).map Prod.fst) family) (declaration : Text) :
    ∃ family', adopt files root family declaration = .ok family' ∧ Grown ((roots files).map Prod.fst) family' := by
  rw [adopt]
  split
  · rename_i candidate _
    split
    · rename_i hnew
      simp only [h.counter candidate hnew.1]
      exact ⟨_, rfl, h.insert (nodup_roots hfiles) (List.mem_map_of_mem hroot) hnew.1 hnew.2⟩
    · exact ⟨family, rfl, h⟩
  · exact ⟨family, rfl, h⟩

theorem families_ok (hfiles : files.Nodup) :
    ∃ family, families files imports = .ok family ∧ Grown ((roots files).map Prod.fst) family := by
  refine Except.foldlM_ok (fun family root hroot h => ?_) ⟨fun c hc => ?_, fun a => ⟨List.nodup_nil, nofun⟩⟩
  · exact Except.foldlM_ok (fun family declaration _ h => adopt_ok hfiles hroot h declaration) h
  · simp only [List.not_mem_nil, decide_false, List.countP_false]
    exact if_pos hc

/-- The counters fit the pass, in whatever order the children come. -/
theorem Grown.counted {names : List Text} {family : Family} {hash : Text → List Text → List Text} (hnames : names.Nodup)
    (hhash : ∀ root l, (hash root l).Perm l) (h : Grown names family) :
    Counted names (fun root => hash root (family.children root)) [] (names.filter fun file => family.parents file = some 0)
      family.parents where
  nodup := hnames.filter _
  known := fun a ha => (List.mem_filter.mp ha).1
  counter := fun c hc => by
    rw [h.counter c hc, left]
    simp only [(hhash _ _).mem_iff, List.not_mem_nil, not_false_eq_true, true_and]
  ready := fun c hc => by
    rw [List.nil_append, List.mem_filter, and_iff_right hc, h.counter c hc, left]
    simp [(hhash _ _).mem_iff]

/-- The pass over the roots is a fold over `takeOrder`. -/
theorem pass_eq_takeOrder {hash : Text → List Text → List Text} (hfiles : files.Nodup) (hhash : ∀ root l, (hash root l).Perm l)
    {family : Family} (hfamily : families files imports = .ok family) (h : Grown ((roots files).map Prod.fst) family) :
    (takeOrder files imports hash).Nodup ∧ (∀ root ∈ takeOrder files imports hash, root ∈ (roots files).map Prod.fst) ∧
      ∀ (act : Progress → Text → Except (Exit RustModules) Progress) (s : Progress) (fuel : Nat), (roots files).length ≤ fuel →
        pass (fun root => hash root (family.children root)) act fuel
          (((roots files).map Prod.fst).filter fun file => family.parents file = some 0) family.parents s =
          (takeOrder files imports hash).foldlM act s := by
  have hnames := nodup_roots hfiles
  obtain ⟨hnodup, hin, hpass⟩ := (h.counted hnames hhash).pass_eq_order hnames fun a _ =>
    ⟨(hhash a _).nodup_iff.mpr (h.children a).1, fun c hc => (h.children a).2 c ((hhash a _).mem_iff.mp hc)⟩
  rw [takeOrder, hfamily]
  exact ⟨hnodup, hin, fun act s fuel hfuel => hpass _ _ act s fuel (by rwa [List.length_map])⟩

end Families

section Walk

variable {files : List Text} {imports : List (Text × Text)}

/-- What the walk keeps, with the targets begun so far and the modules still to be looked at. -/
structure Walked (files : List Text) (imports : List (Text × Text)) (begun : List Text) (pending : List (Text × Module)) (s : Progress) : Prop where
  sound : ∀ file context, context ∈ s.1.contexts file → context.rootFile ∈ begun ∧ Role files imports file context
  waiting : ∀ e ∈ pending, e.2.rootFile ∈ begun ∧ Role files imports e.1 e.2
  start : ∀ root directory, root ∈ begun → (root, directory) ∈ roots files →
    { rootFile := root, rootDir := directory, path := [] } ∈ s.1.contexts root ∨
      (root, { rootFile := root, rootDir := directory, path := [] }) ∈ pending
  closed : ∀ file context, context ∈ s.1.contexts file → ∀ e ∈ declaredBy files imports file context, e.2 ∈ s.1.contexts e.1 ∨ e ∈ pending
  declared : ∀ file, file ∈ s.1.declared ↔
    ∃ context : Module, context.path ≠ [] ∧ (context ∈ s.1.contexts file ∨ (file, context) ∈ pending)
  counted : ∃ l : List (Text × Module), l.Nodup ∧ l.length = s.2 ∧ ∀ e, e ∈ l ↔ e.2 ∈ s.1.contexts e.1
  once : ∀ file, (s.1.contexts file).Nodup
  capped : s.1.capped = false

theorem mem_declaredBy {file : Text} {context : Module} {e : Text × Module} :
    e ∈ declaredBy files imports file context ↔ ∃ declaration ∈ declarations files imports file,
      named files (context.rootDir ++ Segments.join (context.path ++ Segments.split declaration)) = some e.1 ∧
        e.2 = { context with path := context.path ++ Segments.split declaration } := by
  obtain ⟨candidate, module⟩ := e
  simp only [declaredBy, List.mem_filterMap, Option.map_eq_some_iff, Prod.mk.injEq]
  constructor
  · rintro ⟨declaration, hmem, _, hnamed, rfl, rfl⟩
    exact ⟨declaration, hmem, hnamed, rfl⟩
  · rintro ⟨declaration, hmem, hnamed, rfl⟩
    exact ⟨declaration, hmem, candidate, hnamed, rfl, rfl⟩

theorem declaredBy_role {file : Text} {context : Module} {e : Text × Module} (h : Role files imports file context)
    (he : e ∈ declaredBy files imports file context) : e.2.rootFile = context.rootFile ∧ e.2.path ≠ [] ∧ Role files imports e.1 e.2 := by
  obtain ⟨declaration, hmem, hnamed, heq⟩ := mem_declaredBy.mp he
  rw [heq]
  refine ⟨rfl, fun hpath => List.splitOn_ne_nil '/' declaration (List.append_eq_nil_iff.mp hpath).2, h.1, ?_⟩
  exact h.2.declared hmem hnamed

theorem length_declaredBy_le (file : Text) (context : Module) : (declaredBy files imports file context).length ≤ imports.length :=
  Nat.le_trans (List.length_filterMap_le _ _) (List.length_filterMap_le _ _)

/-- With nothing pending every context of a target begun is there. -/
theorem Walked.complete {begun : List Text} {s : Progress} (h : Walked files imports begun [] s) {file : Text} {context : Module}
    (hbegun : context.rootFile ∈ begun) (hrole : Role files imports file context) : context ∈ s.1.contexts file := by
  obtain ⟨hroot, hreached⟩ := hrole
  obtain ⟨root, directory, path⟩ := context
  dsimp only at hbegun hroot hreached
  induction hreached with
  | root => exact (h.start root directory hbegun hroot).resolve_right nofun
  | declared _ hmem hnamed ih =>
    exact (h.closed _ _ ih (_, _) (mem_declaredBy.mpr ⟨_, hmem, hnamed, rfl⟩)).resolve_right nofun

theorem Walked.mem_contexts_iff {begun : List Text} {s : Progress} (h : Walked files imports begun [] s) {file : Text} {context : Module} :
    context ∈ s.1.contexts file ↔ context.rootFile ∈ begun ∧ Role files imports file context :=
  ⟨h.sound file context, fun hboth => h.complete hboth.1 hboth.2⟩

theorem Walked.mem_declared_iff {begun : List Text} {s : Progress} (h : Walked files imports begun [] s) {file : Text} :
    file ∈ s.1.declared ↔ ∃ q ∈ begun, Declares files imports q file := by
  rw [h.declared]
  constructor
  · rintro ⟨context, hpath, hmem | hmem⟩
    · obtain ⟨hbegun, hrole⟩ := h.sound file context hmem
      exact ⟨context.rootFile, hbegun, context, rfl, hpath, hrole⟩
    · cases hmem
  · rintro ⟨_, hbegun, context, rfl, hpath, hrole⟩
    exact ⟨context, hpath, Or.inl (h.complete hbegun hrole)⟩

theorem Walked.start_target {begun : List Text} {s : Progress} {root directory : Text} (h : Walked files imports begun [] s)
    (hroot : (root, directory) ∈ roots files) :
    Walked files imports (begun ++ [root]) [(root, { rootFile := root, rootDir := directory, path := [] })] s where
  sound := fun file context hc => ⟨List.mem_append_left _ (h.sound file context hc).1, (h.sound file context hc).2⟩
  waiting := fun e he => by
    rw [List.mem_singleton.mp he]
    exact ⟨by simp, hroot, .root⟩
  start := fun r d hr hd => by
    rcases List.mem_append.mp hr with hr | hr
    · exact (h.start r d hr hd).imp id nofun
    · obtain rfl := List.mem_singleton.mp hr
      obtain rfl : d = directory := by
        have := (mem_roots.mp hd).2.symm.trans (mem_roots.mp hroot).2
        simpa using this
      exact Or.inr List.mem_cons_self
  closed := fun file context hc e he => (h.closed file context hc e he).imp id nofun
  declared := fun file => by
    rw [h.declared]
    refine exists_congr fun context => and_congr_right fun hpath => or_congr_right ?_
    simp only [List.not_mem_nil, List.mem_singleton, Prod.mk.injEq, false_iff, not_and]
    rintro - rfl
    exact hpath rfl
  counted := h.counted
  once := h.once
  capped := h.capped

/-- The step for a context that has been seen. -/
theorem Walked.skip {begun : List Text} {pending : List (Text × Module)} {file : Text} {context : Module} {result : RustModules}
    {total : Nat} (h : Walked files imports begun ((file, context) :: pending) (result, total)) (hseen : context ∈ result.contexts file) :
    Walked files imports begun pending (result.orDefault file, total) := by
  have hmove : ∀ e : Text × Module, e.2 ∈ result.contexts e.1 ∨ e ∈ (file, context) :: pending ↔ e.2 ∈ result.contexts e.1 ∨ e ∈ pending := by
    intro e
    rw [List.mem_cons]
    constructor
    · rintro (he | rfl | he)
      · exact Or.inl he
      · exact Or.inl hseen
      · exact Or.inr he
    · exact fun he => he.imp id Or.inr
  refine ⟨?_, fun e he => h.waiting e (List.mem_cons_of_mem _ he), ?_, ?_, ?_, ?_, ?_, h.capped⟩
  · simpa using h.sound
  · intro r d hr hd
    simpa using (hmove (r, _)).mp (h.start r d hr hd)
  · intro f c hc e he
    simp only [RustModules.contexts_orDefault] at hc ⊢
    exact (hmove e).mp (h.closed f c hc e he)
  · intro f
    simp only [RustModules.contexts_orDefault]
    exact (h.declared f).trans (exists_congr fun c => and_congr_right fun _ => hmove (f, c))
  · simpa using h.counted
  · simpa using h.once

/-- The step for a new context. -/
theorem Walked.push {begun : List Text} {pending : List (Text × Module)} {file : Text} {context : Module} {result : RustModules}
    {total : Nat} (h : Walked files imports begun ((file, context) :: pending) (result, total))
    (hnew : context ∉ result.contexts file) :
    Walked files imports begun (pending ++ declaredBy files imports file context)
      ({ (result.orDefault file).push file context with
          declared := result.declared ++ (declaredBy files imports file context).map Prod.fst }, total + 1) := by
  obtain ⟨hbegun, hrole⟩ := h.waiting _ List.mem_cons_self
  have hadded := fun e he => declaredBy_role (e := e) hrole he
  have hcontexts : ∀ f, ({ (result.orDefault file).push file context with
      declared := result.declared ++ (declaredBy files imports file context).map Prod.fst } : RustModules).contexts f =
        if f = file then result.contexts f ++ [context] else result.contexts f := by
    intro f
    exact (RustModules.contexts_push (result.orDefault file) file f context).trans (by rw [RustModules.contexts_orDefault])
  have hmem : ∀ e : Text × Module, e.2 ∈ (if e.1 = file then result.contexts e.1 ++ [context] else result.contexts e.1) ↔
      e.2 ∈ result.contexts e.1 ∨ e = (file, context) := by
    rintro ⟨f, c⟩
    by_cases hf : f = file <;> simp [hf]
  have hmove : ∀ e : Text × Module, e.2 ∈ result.contexts e.1 ∨ e ∈ (file, context) :: pending ↔
      (e.2 ∈ result.contexts e.1 ∨ e = (file, context)) ∨ e ∈ pending := by
    intro e
    rw [List.mem_cons, or_assoc]
  refine ⟨?_, ?_, ?_, ?_, ?_, ?_, ?_, h.capped⟩
  · intro f c hc
    rw [hcontexts] at hc
    rcases (hmem (f, c)).mp hc with hc | hc
    · exact h.sound f c hc
    · cases hc
      exact ⟨hbegun, hrole⟩
  · intro e he
    rcases List.mem_append.mp he with he | he
    · exact h.waiting e (List.mem_cons_of_mem _ he)
    · obtain ⟨hroot, -, hrole'⟩ := hadded e he
      exact ⟨hroot ▸ hbegun, hrole'⟩
  · intro r d hr hd
    rw [hcontexts]
    exact ((hmove (r, _)).mp (h.start r d hr hd)).imp (hmem (r, _)).mpr (List.mem_append_left _)
  · intro f c hc e he
    rw [hcontexts] at hc ⊢
    rcases (hmem (f, c)).mp hc with hc | hc
    · exact ((hmove e).mp (h.closed f c hc e he)).imp (hmem e).mpr (List.mem_append_left _)
    · cases hc
      exact Or.inr (List.mem_append_right _ he)
  · intro f
    rw [List.mem_append, h.declared]
    constructor
    · rintro (⟨c, hpath, hc⟩ | hf)
      · refine ⟨c, hpath, ?_⟩
        rw [hcontexts]
        exact ((hmove (f, c)).mp hc).imp (hmem (f, c)).mpr (List.mem_append_left _)
      · obtain ⟨e, he, rfl⟩ := List.mem_map.mp hf
        exact ⟨e.2, (hadded e he).2.1, Or.inr (List.mem_append_right _ he)⟩
    · rintro ⟨c, hpath, hc⟩
      rw [hcontexts] at hc
      rcases hc with hc | hc
      · exact Or.inl ⟨c, hpath, (hmove (f, c)).mpr (Or.inl ((hmem (f, c)).mp hc))⟩
      · rcases List.mem_append.mp hc with hc | hc
        · exact Or.inl ⟨c, hpath, Or.inr (List.mem_cons_of_mem _ hc)⟩
        · exact Or.inr (List.mem_map_of_mem hc)
  · obtain ⟨l, hl, hlength, hcount⟩ := h.counted
    refine ⟨(file, context) :: l, List.nodup_cons.mpr ⟨fun hin => hnew ((hcount _).mp hin), hl⟩, by rw [List.length_cons, hlength], ?_⟩
    intro e
    rw [hcontexts, hmem, List.mem_cons, hcount, or_comm]
  · intro f
    rw [hcontexts]
    split
    · rename_i hf
      subst hf
      rw [List.nodup_append]
      refine ⟨h.once f, List.nodup_singleton _, ?_⟩
      rintro a ha b hb rfl
      rw [List.mem_singleton.mp hb] at ha
      exact hnew ha
    · exact h.once f

/-- The walk of the targets begun ends, unless they have too many contexts. -/
theorem Walked.walk_ok {begun : List Text} (hfew : Few files imports begun) {fuel : Nat} :
    ∀ {pending : List (Text × Module)} {s : Progress}, Walked files imports begun pending s →
      pending.length + (CONTEXTS - s.2) * (imports.length + 1) ≤ fuel →
      ∃ s', walk files imports fuel pending s = .ok s' ∧ Walked files imports begun [] s' := by
  induction fuel with
  | zero =>
    intro pending s h hfuel
    obtain rfl : pending = [] := List.eq_nil_of_length_eq_zero (by omega)
    exact ⟨s, by rw [walk], h⟩
  | succ fuel ih =>
    rintro (_ | ⟨⟨file, context⟩, pending⟩) ⟨result, total⟩ h hfuel
    · exact ⟨_, by rw [walk], h⟩
    rw [List.length_cons] at hfuel
    rw [walk]
    simp only [RustModules.contexts_orDefault]
    by_cases hseen : context ∈ result.contexts file
    · rw [if_pos hseen]
      exact ih (h.skip hseen) (by dsimp only at hfuel ⊢; omega)
    rw [if_neg hseen]
    have htotal : total + 1 ≤ CONTEXTS := by
      -- the contexts counted so far and the new one are contexts of the targets begun
      obtain ⟨l, hl, hlength, hcount⟩ := h.counted
      have hle := hfew ((file, context) :: l) (List.nodup_cons.mpr ⟨fun hin => hseen ((hcount _).mp hin), hl⟩) (by
        intro e he
        rcases List.mem_cons.mp he with rfl | he
        · exact h.waiting _ List.mem_cons_self
        · exact h.sound e.1 e.2 ((hcount e).mp he))
      rw [List.length_cons, hlength] at hle
      exact hle
    rw [if_neg (Nat.not_lt.mpr htotal)]
    refine ih (h.push hseen) ?_
    have hadded := @length_declaredBy_le files imports file context
    have hsplit : (CONTEXTS - total) * (imports.length + 1) = (CONTEXTS - (total + 1)) * (imports.length + 1) + (imports.length + 1) := by
      rw [← Nat.succ_mul]
      congr 1
      omega
    rw [List.length_append]
    dsimp only at hfuel ⊢
    omega

end Walk

section Targets

variable {files : List Text} {imports : List (Text × Text)}

theorem Few.mono {begun chosen : List Text} (h : Few files imports chosen) (hsub : begun ⊆ chosen) : Few files imports begun :=
  fun l hl hin => h l hl fun e he => ⟨hsub (hin e he).1, (hin e he).2⟩

/-- The fuel one walk needs at most. -/
def walkFuel (imports : List (Text × Text)) : Nat := 1 + CONTEXTS * (imports.length + 1)

/-- The roots taken so far: the walks were those of the roots chosen among them. -/
theorem foldlM_visit_ok {l : List Text} {fuel : Nat} (hfuel : walkFuel imports ≤ fuel) :
    (∀ root ∈ l, root ∈ (roots files).map Prod.fst) → Few files imports (choose (Declares files imports) l) →
      ∃ s, l.foldlM (visit files imports fuel) (({}, 0) : Progress) = .ok s ∧
        Walked files imports (choose (Declares files imports) l) [] s := by
  induction l using List.reverseRecOn with
  | nil =>
    intro _ _
    refine ⟨_, rfl, nofun, nofun, nofun, nofun, ?_, ⟨[], List.nodup_nil, rfl, ?_⟩, fun _ => List.nodup_nil, rfl⟩
    · exact fun file => ⟨nofun, by rintro ⟨_, -, h | h⟩ <;> cases h⟩
    · exact fun e => ⟨nofun, nofun⟩
  | append_singleton l root ih =>
    intro hroots hfew
    obtain ⟨s, hs, hwalked⟩ := ih (fun r hr => hroots r (List.mem_append_left _ hr)) (hfew.mono (choose_subset_append l [root]))
    rw [List.foldlM_append, hs]
    have hdeclared := @Walked.mem_declared_iff _ _ _ _ hwalked root
    by_cases hmem : root ∈ s.1.declared
    · refine ⟨s, ?_, ?_⟩
      · show ([root].foldlM (visit files imports fuel) s) = .ok s
        rw [List.foldlM_cons, visit, if_pos hmem]
        rfl
      · rw [choose_concat_of_covered (hdeclared.mp hmem)]
        exact hwalked
    · obtain ⟨directory, hlookup, hroot⟩ := lookup_roots (hroots root (by simp))
      have hchosen := choose_concat (mt hdeclared.mpr hmem)
      rw [hchosen] at hfew ⊢
      obtain ⟨s', hs', hwalked'⟩ := @Walked.walk_ok _ _ _ hfew fuel _ _ (hwalked.start_target hroot) (by
        have : (CONTEXTS - s.2) * (imports.length + 1) ≤ CONTEXTS * (imports.length + 1) :=
          Nat.mul_le_mul_right _ (Nat.sub_le _ _)
        rw [walkFuel] at hfuel
        simp only [List.length_cons, List.length_nil]
        omega)
      refine ⟨s', ?_, hwalked'⟩
      show ([root].foldlM (visit files imports fuel) s) = .ok s'
      rw [List.foldlM_cons, visit, if_neg hmem, hlookup]
      simp only [hs']
      rfl

theorem Walked.selected_iff {chosen : List Text} {s : Progress} {result : RustModules} (h : Walked files imports chosen [] s)
    (hroots : ∀ root ∈ chosen, root ∈ (roots files).map Prod.fst) (hresult : ∀ file, result.contexts file = s.1.contexts file)
    (root : Text) : Selected result root ↔ root ∈ chosen := by
  rw [Selected, hresult]
  constructor
  · rintro ⟨directory, hmem⟩
    exact (h.sound _ _ hmem).1
  · intro hmem
    obtain ⟨directory, -, hroot⟩ := lookup_roots (hroots root hmem)
    exact ⟨directory, (h.start root directory hmem hroot).resolve_right nofun⟩

/-- A file has the contexts of the selected targets, each once; no selected target is a module of another one just if
the pass takes the roots in order. -/
theorem from_imports_roles_iff {hash : Text → List Text → List Text} (hfiles : files.Nodup)
    (hhash : ∀ root l, (hash root l).Perm l) (hfew : Few files imports (targets files imports hash)) :
    ∃ bound, ∀ fuel, bound ≤ fuel → ∃ result, fromImports files imports hash fuel = .ok result ∧ result.capped = false ∧
      (∀ file context, context ∈ result.contexts file ↔ Selected result context.rootFile ∧ Role files imports file context) ∧
      (∀ file, (result.contexts file).Nodup) ∧
      (RolesApart files imports result ↔ RootsInOrder files imports hash) := by
  refine ⟨(roots files).length + walkFuel imports, fun fuel hfuel => ?_⟩
  obtain ⟨family, hfamily, hgrown⟩ := @families_ok files imports hfiles
  obtain ⟨hnodup, hin, hpass⟩ := pass_eq_takeOrder hfiles hhash hfamily hgrown
  obtain ⟨s, hs, hwalked⟩ := @foldlM_visit_ok _ _ _ fuel (Nat.le_trans (Nat.le_add_left ..) hfuel) hin hfew
  have hchosen : ∀ root ∈ targets files imports hash, root ∈ (roots files).map Prod.fst := fun root hroot => hin root (mem_of_mem_choose hroot)
  let result := ((roots files).map Prod.fst).foldl RustModules.orDefault s.1
  have hcontexts : ∀ file, result.contexts file = s.1.contexts file := RustModules.contexts_foldl_orDefault _ _
  have hselected := hwalked.selected_iff hchosen hcontexts
  refine ⟨result, ?_, ?_, fun file context => ?_, fun file => ?_, ?_⟩
  · have hfold := hpass (visit files imports fuel) ({}, 0) fuel (Nat.le_trans (Nat.le_add_right ..) hfuel)
    have hwalk : walkRoots files imports hash fuel = .ok result :=
      Except.bind_eq_ok.mpr ⟨family, hfamily, Except.bind_eq_ok.mpr ⟨s, hfold.trans hs, rfl⟩⟩
    rw [fromImports, hwalk]
  · exact (RustModules.capped_foldl_orDefault _ _).trans hwalked.capped
  · rw [hcontexts, hselected]
    exact hwalked.mem_contexts_iff
  · rw [hcontexts]
    exact hwalked.once file
  · rw [RolesApart, RootsInOrder, ← choose_apart_iff hnodup]
    simp only [hselected]
    exact ⟨fun h q hq r hr => h q r hq hr, fun h q r hq hr => h q hq r hr⟩

end Targets

section Closed

variable {files : List Text} {imports : List (Text × Text)}

/-- The list has the target roots, and with a module what that one declares. -/
def Closed (files : List Text) (imports : List (Text × Text)) (l : List (Text × Module)) : Prop :=
  (∀ root ∈ roots files, (root.1, { rootFile := root.1, rootDir := root.2, path := [] }) ∈ l) ∧
    ∀ e ∈ l, ∀ e' ∈ declaredBy files imports e.1 e.2, e' ∈ l

instance (l : List (Text × Module)) : Decidable (Closed files imports l) := inferInstanceAs (Decidable (_ ∧ _))

theorem Closed.mem {l : List (Text × Module)} (h : Closed files imports l) {file : Text} {context : Module}
    (hrole : Role files imports file context) : (file, context) ∈ l := by
  obtain ⟨hroot, hreached⟩ := hrole
  obtain ⟨root, directory, path⟩ := context
  dsimp only at hroot hreached
  induction hreached with
  | root => exact h.1 _ hroot
  | declared _ hmem hnamed ih => exact h.2 _ ih (_, _) (mem_declaredBy.mpr ⟨_, hmem, hnamed, rfl⟩)

theorem Closed.few {l : List (Text × Module)} (h : Closed files imports l) (hlength : l.length ≤ CONTEXTS) (chosen : List Text) :
    Few files imports chosen := fun _ hl' hin =>
  Nat.le_trans (List.subperm_of_subset hl' fun e he => h.mem (hin e he).2).length_le hlength

end Closed

section Examples

/-- A library with one module. -/
def libraryFiles : List Text := ["src/lib.rs", "src/api.rs"].map String.toList

def libraryImports : List (Text × Text) := [("src/lib.rs".toList, "./api".toList)]

/-- The library has a module of its own in `src/bin.rs`, and that one a module that is the root of a binary. -/
def sharedFiles : List Text := ["src/bin.rs", "src/bin/x.rs", "src/lib.rs"].map String.toList

def sharedImports : List (Text × Text) :=
  [("src/lib.rs".toList, "./bin".toList), ("src/bin.rs".toList, "./x".toList)]

theorem from_imports_roles_iff_for_a_library :
    ∃ bound, ∀ fuel, bound ≤ fuel → ∃ result, fromImports libraryFiles libraryImports (fun _ l => l) fuel = .ok result ∧
      result.capped = false ∧
      (∀ file context, context ∈ result.contexts file ↔ Selected result context.rootFile ∧ Role libraryFiles libraryImports file context) ∧
      (∀ file, (result.contexts file).Nodup) ∧
      (RolesApart libraryFiles libraryImports result ↔ RootsInOrder libraryFiles libraryImports fun _ l => l) := by
  have hclosed : Closed libraryFiles libraryImports [("src/lib.rs".toList, ⟨"src/lib.rs".toList, "src/".toList, []⟩),
      ("src/api.rs".toList, ⟨"src/lib.rs".toList, "src/".toList, ["api".toList]⟩)] := by decide
  exact from_imports_roles_iff (by decide) (fun _ l => .refl l) (hclosed.few (by decide) _)

/-- The contexts of the shared files: the binary has one as a target and one as a module. -/
def libraryRoot : Module := ⟨"src/lib.rs".toList, "src/".toList, []⟩

def binaryRoot : Module := ⟨"src/bin/x.rs".toList, "src/bin/".toList, []⟩

def binModule : Module := ⟨"src/lib.rs".toList, "src/".toList, ["bin".toList]⟩

def binaryModule : Module := ⟨"src/lib.rs".toList, "src/".toList, ["bin".toList, "x".toList]⟩

/-- The binary is taken as a target before the library that has it as a module. -/
theorem module_taken_as_target :
    ∃ result, fromImports sharedFiles sharedImports (fun _ l => l) 50 = .ok result ∧ result.capped = false ∧
      ¬RolesApart sharedFiles sharedImports result := by
  have hrun : Except.test (fun result => !result.capped && decide (libraryRoot ∈ result.contexts "src/lib.rs".toList) &&
        decide (binaryRoot ∈ result.contexts "src/bin/x.rs".toList)) (fromImports sharedFiles sharedImports (fun _ l => l) 50) = true ∧
      (libraryRoot.rootFile, libraryRoot.rootDir) ∈ roots sharedFiles ∧
      ("src/bin.rs".toList, binModule) ∈ declaredBy sharedFiles sharedImports "src/lib.rs".toList libraryRoot ∧
      ("src/bin/x.rs".toList, binaryModule) ∈ declaredBy sharedFiles sharedImports "src/bin.rs".toList binModule ∧
      Closed sharedFiles sharedImports [("src/lib.rs".toList, libraryRoot), ("src/bin/x.rs".toList, binaryRoot),
        ("src/bin.rs".toList, binModule), ("src/bin/x.rs".toList, binaryModule)] := by decide
  obtain ⟨htest, hroot, hbin, hbinary, hclosed⟩ := hrun
  obtain ⟨result, hresult, htest⟩ := Except.test_eq_true.mp htest
  simp only [Bool.and_eq_true, Bool.not_eq_true', decide_eq_true_eq] at htest
  obtain ⟨⟨hcapped, hlibrary⟩, hselected⟩ := htest
  refine ⟨result, hresult, hcapped, fun hapart => ?_⟩
  have hrole := (declaredBy_role (declaredBy_role ⟨hroot, .root⟩ hbin).2.2 hbinary).2.2
  obtain ⟨context, hback, -, hcontext⟩ := hapart "src/lib.rs".toList "src/bin/x.rs".toList ⟨_, hlibrary⟩ ⟨_, hselected⟩ (by decide)
    ⟨binaryModule, rfl, nofun, hrole⟩
  -- nothing of the library has the binary as its root
  have hmem := hclosed.mem hcontext
  simp only [List.mem_cons, Prod.mk.injEq, List.not_mem_nil, or_false] at hmem
  rcases hmem with ⟨-, rfl⟩ | ⟨hfile, -⟩ | ⟨hfile, -⟩ | ⟨hfile, -⟩
  · exact absurd hback (by decide)
  · exact absurd hfile (by decide)
  · exact absurd hfile (by decide)
  · exact absurd hfile (by decide)

end Examples

end Rust
end Graph
end CodeSage
