import CodeSage.Graph.Impact
import CodeSage.Lib.Reach

/-!
# CodeSage.Graph.ImpactFollow

The reverse steps that the impact walk is about (`Edge`, `AtStep`), with the lookups taken as fixed functions, and what
one level of the walk follows of them: `Follows` says that some of a set of edges have been followed, and without a
budget all of them.
-/

namespace CodeSage
namespace Graph
namespace Impact

open Lib

/-- The lookups of the walk, as fixed functions. `contextCapped s` when the context that the references of `s` are
resolved in is capped. -/
structure Evidence (Symbol File Name Kind : Type) where
  name : Symbol → Name
  filePath : Symbol → File
  cost : Symbol → Nat
  references : Symbol → List (Reference File Name Kind)
  fileImports : List (Reference File Name Kind)
  targetsFile : Reference File Name Kind → File → Bool
  owner : Reference File Name Kind → Option Symbol
  contextCapped : Symbol → Bool

/-- The walk over fixed lookups: all that it keeps of them is whether the context was capped. -/
def Evidence.lookup {Symbol File Name Kind : Type} (E : Evidence Symbol File Name Kind) :
    Lookup Symbol File Name Kind Bool where
  name := E.name
  filePath := E.filePath
  cost := E.cost
  references := fun capped symbol => (E.references symbol, capped || E.contextCapped symbol)
  fileImports := E.fileImports
  cachedMatches := fun _ _ => none
  targetsFile := fun capped r file => (E.targetsFile r file, capped)
  rememberImports := fun capped _ _ => capped
  owner := E.owner
  contextCapped := fun capped => capped

section Spec

variable {Symbol File Name Kind : Type} (E : Evidence Symbol File Name Kind) (req : ImpactRequest Symbol File)

inductive Node (Symbol File : Type) where
  | symbol (s : Symbol)
  | file (f : File)

def InFrontier (symbols : List Symbol) (files : List File) : Node Symbol File → Prop
  | .symbol s => s ∈ symbols
  | .file f => f ∈ files

/-- A reference that resolves to a symbol, or for a file target an import that matches a file: never from an origin
file. -/
def Edge : Node Symbol File → Reason Name Kind → Reference File Name Kind → Prop
  | .symbol s, reason, r => r ∈ E.references s ∧ r.fromFile ∉ originFiles E.lookup req ∧
    reason = ⟨E.name s, r.kind, r.line⟩
  | .file f, reason, r => r ∈ walkImports E.lookup req ∧ E.targetsFile r f = true ∧
    r.fromFile ∉ originFiles E.lookup req ∧ reason = ⟨r.toName, r.kind, r.line⟩

/-- What an edge to a node leads to: its caller and its file. Without `through`, only an import leads to its file. -/
def LeadsTo (through : Bool) (n : Node Symbol File) (r : Reference File Name Kind) : Node Symbol File → Prop
  | .symbol s => E.owner r = some s
  | .file f => f = r.fromFile ∧ (through = true ∨ ∃ g, n = .file g)

def Step (through : Bool) (n m : Node Symbol File) : Prop :=
  ∃ reason r, Edge E req n reason r ∧ LeadsTo E through n r m

/-- A node that this many reverse steps lead to. -/
def AtStep (through : Bool) : Nat → Node Symbol File → Prop :=
  ReachIn (Step E req through) (InFrontier req.target.seeds req.target.files)

/-- A file with an edge to a node that `k` steps lead to: `k + 1` steps from the target. -/
def Dependent (through : Bool) (f : File) (k : Nat) (reason : Reason Name Kind) : Prop :=
  ∃ n r, AtStep E req through k n ∧ Edge E req n reason r ∧ r.fromFile = f

/-- The minimum number of steps from a file to the target. -/
structure Distance (f : File) (d : Nat) : Prop where
  reaches : ∃ k reason, d = k + 1 ∧ Dependent E req true f k reason
  least : ∀ k reason, Dependent E req true f k reason → d ≤ k + 1

/-- The reasons of a file within a number of steps. -/
def reasonsWithin (f : File) (depth : Nat) : Set (Reason Name Kind) :=
  {reason | ∃ k < depth, Dependent E req true f k reason}

end Spec

section Found

variable {File Name Kind : Type}

/-- What is known of a dependent, when `Q d reason` says that a step of depth `d` gave this reason. -/
structure FoundIs (e : Found Name Kind) (Q : Nat → Reason Name Kind → Prop) : Prop where
  distinct : e.edges.Nodup
  edges : ∀ x, x ∈ e.edges ↔ ∃ d, Q d x
  reached : ∃ x, Q e.distance x
  least : ∀ d x, Q d x → e.distance ≤ d

variable [DecidableEq Name] [DecidableEq Kind] {depth : Nat} {reason : Reason Name Kind}

theorem foundIs_first : FoundIs (Found.note depth reason none) fun d x => d = depth ∧ x = reason where
  distinct := List.nodup_singleton reason
  edges := fun _ => List.mem_singleton.trans ⟨fun h => ⟨depth, rfl, h⟩, fun ⟨_, _, h⟩ => h⟩
  reached := ⟨reason, rfl, rfl⟩
  least := fun _ _ h => h.1.ge

theorem FoundIs.note {e : Found Name Kind} {Q : Nat → Reason Name Kind → Prop} (h : FoundIs e Q) :
    FoundIs (Found.note depth reason (some e)) fun d x => Q d x ∨ d = depth ∧ x = reason := by
  obtain ⟨y, hy⟩ := h.reached
  have hreached : ∃ x, Q (min e.distance depth) x ∨ min e.distance depth = depth ∧ x = reason := by
    rcases Nat.le_total e.distance depth with hle | hle
    · exact ⟨y, .inl (by rwa [Nat.min_eq_left hle])⟩
    · exact ⟨reason, .inr ⟨Nat.min_eq_right hle, rfl⟩⟩
  have hleast : ∀ d x, Q d x ∨ d = depth ∧ x = reason → min e.distance depth ≤ d := by
    rintro d x (hd | ⟨rfl, -⟩)
    · exact (Nat.min_le_left ..).trans (h.least d x hd)
    · exact Nat.min_le_right ..
  by_cases hknown : reason ∈ e.edges
  · rw [Found.note, if_pos hknown]
    refine ⟨h.distinct, fun x => (h.edges x).trans ⟨fun ⟨d, hd⟩ => ⟨d, .inl hd⟩, ?_⟩, hreached, hleast⟩
    rintro ⟨d, hd | ⟨rfl, rfl⟩⟩
    · exact ⟨d, hd⟩
    · exact (h.edges _).mp hknown
  · rw [Found.note, if_neg hknown]
    refine ⟨List.nodup_append'.mpr ⟨h.distinct, List.nodup_singleton reason, ?_⟩, fun x => ?_, hreached, hleast⟩
    · exact List.disjoint_singleton.mpr hknown
    · rw [List.mem_append, List.mem_singleton, h.edges]
      constructor
      · rintro (⟨d, hd⟩ | rfl)
        · exact ⟨d, .inl hd⟩
        · exact ⟨depth, .inr ⟨rfl, rfl⟩⟩
      · rintro ⟨d, hd | ⟨-, rfl⟩⟩
        · exact .inl ⟨d, hd⟩
        · exact .inr rfl

variable [DecidableEq File] {found : Table File (Found Name Kind)} {P : File → Nat → Reason Name Kind → Prop}

/-- The table of dependents, when `P f d reason` says that a step of depth `d` gave the file this reason. -/
structure TableIs (found : Table File (Found Name Kind)) (P : File → Nat → Reason Name Kind → Prop) : Prop where
  present : ∀ f e, found.lookup f = some e → FoundIs e (P f)
  missing : ∀ f, found.lookup f = none → ∀ d x, ¬P f d x

theorem TableIs.note (h : TableIs found P) (file : File) (depth : Nat) (reason : Reason Name Kind) :
    TableIs (found.put file (Found.note depth reason)) fun f d x => P f d x ∨ f = file ∧ d = depth ∧ x = reason := by
  have hother : ∀ f, f ≠ file → (fun d x => P f d x ∨ f = file ∧ d = depth ∧ x = reason) = P f := by
    intro f hf
    funext d x
    exact propext ⟨fun hP => hP.resolve_right fun hnew => hf hnew.1, .inl⟩
  constructor
  · intro f e he
    rw [Table.lookup_put] at he
    split at he
    · rename_i hf
      subst hf
      cases he
      cases hold : found.lookup f with
      | none =>
        have hsame : (fun d x => P f d x ∨ f = f ∧ d = depth ∧ x = reason) = fun d x => d = depth ∧ x = reason := by
          funext d x
          exact propext ⟨fun hP => (hP.resolve_left (h.missing f hold d x)).2, fun hP => .inr ⟨rfl, hP⟩⟩
        rw [hsame]
        exact foundIs_first
      | some e₀ =>
        have hsame : (fun d x => P f d x ∨ f = f ∧ d = depth ∧ x = reason) =
            fun d x => P f d x ∨ d = depth ∧ x = reason := by
          funext d x
          exact propext (or_congr_right (and_iff_right rfl))
        rw [hsame]
        exact (h.present f e₀ hold).note
    · rename_i hf
      rw [hother f hf]
      exact h.present f e he
  · intro f hnone d x
    rw [Table.lookup_put] at hnone
    split at hnone
    · cases hnone
    · rename_i hf
      rintro (hP | hnew)
      · exact h.missing f hnone d x hP
      · exact hf hnew.1

end Found

section Followed

variable {Symbol File Name Kind : Type} [DecidableEq File]

abbrev Edges (Symbol File Name Kind : Type) : Type :=
  Node Symbol File → Reason Name Kind → Reference File Name Kind → Prop

variable (E : Evidence Symbol File Name Kind) (req : ImpactRequest Symbol File) (depth : Nat)

/-- These edges have been followed at this depth. -/
structure Followed (s s' : Run Symbol File Name Kind Bool) (A : Edges Symbol File Name Kind) : Prop where
  found : ∀ P, TableIs s.found P →
    TableIs s'.found fun f d x => P f d x ∨ d = depth ∧ ∃ n r, A n x r ∧ r.fromFile = f
  callers : ∀ r, r ∈ s'.pendingCallers ↔ r ∈ s.pendingCallers ∨ depth < depth32 req ∧ ∃ n x, A n x r
  files : ∀ f, f ∈ s'.nextFiles ↔
    f ∈ s.nextFiles ∨ depth < depth32 req ∧ ∃ n x r, A n x r ∧ LeadsTo E req.fileForm n r (.file f)
  visitedSymbols : s'.visitedSymbols = s.visitedSymbols
  frontierCapped : s'.frontierCapped = s.frontierCapped
  cache : s'.cache = s.cache

variable {E req depth} {s s' s'' : Run Symbol File Name Kind Bool} {A B : Edges Symbol File Name Kind}

theorem Followed.congr (h : Followed E req depth s s' A) (hAB : ∀ n x r, A n x r ↔ B n x r) :
    Followed E req depth s s' B := by
  have heq : A = B := by
    funext n x r
    exact propext (hAB n x r)
  exact heq ▸ h

theorem TableIs.congr {found : Table File (Found Name Kind)} {P Q : File → Nat → Reason Name Kind → Prop}
    (h : TableIs found P) (hPQ : ∀ f d x, P f d x ↔ Q f d x) : TableIs found Q := by
  have heq : P = Q := by
    funext f d x
    exact propext (hPQ f d x)
  exact heq ▸ h

/-- Nothing has been followed when none of these has changed. -/
theorem Followed.still (hfound : s'.found = s.found) (hcallers : s'.pendingCallers = s.pendingCallers)
    (hfiles : s'.nextFiles = s.nextFiles) (hvisited : s'.visitedSymbols = s.visitedSymbols)
    (hcapped : s'.frontierCapped = s.frontierCapped) (hcache : s'.cache = s.cache) :
    Followed E req depth s s' fun _ _ _ => False where
  found := fun P hP => by
    rw [hfound]
    exact hP.congr fun f d x => ⟨.inl, fun h => h.resolve_right fun ⟨_, _, _, hA, _⟩ => hA⟩
  callers := fun r => by
    rw [hcallers]
    exact ⟨.inl, fun h => h.resolve_right fun ⟨_, _, _, hA⟩ => hA⟩
  files := fun f => by
    rw [hfiles]
    exact ⟨.inl, fun h => h.resolve_right fun ⟨_, _, _, _, hA, _⟩ => hA⟩
  visitedSymbols := hvisited
  frontierCapped := hcapped
  cache := hcache

theorem Followed.refl : Followed E req depth s s fun _ _ _ => False := .still rfl rfl rfl rfl rfl rfl

theorem Followed.trans (h : Followed E req depth s s' A) (h' : Followed E req depth s' s'' B) :
    Followed E req depth s s'' fun n x r => A n x r ∨ B n x r where
  found := fun P hP => by
    refine (h'.found _ (h.found P hP)).congr fun f d x => ?_
    constructor
    · rintro ((hP | ⟨hd, n, r, hA, hf⟩) | ⟨hd, n, r, hB, hf⟩)
      · exact .inl hP
      · exact .inr ⟨hd, n, r, .inl hA, hf⟩
      · exact .inr ⟨hd, n, r, .inr hB, hf⟩
    · rintro (hP | ⟨hd, n, r, hA | hB, hf⟩)
      · exact .inl (.inl hP)
      · exact .inl (.inr ⟨hd, n, r, hA, hf⟩)
      · exact .inr ⟨hd, n, r, hB, hf⟩
  callers := fun r => by
    rw [h'.callers, h.callers]
    constructor
    · rintro ((hr | ⟨hd, n, x, hA⟩) | ⟨hd, n, x, hB⟩)
      · exact .inl hr
      · exact .inr ⟨hd, n, x, .inl hA⟩
      · exact .inr ⟨hd, n, x, .inr hB⟩
    · rintro (hr | ⟨hd, n, x, hA | hB⟩)
      · exact .inl (.inl hr)
      · exact .inl (.inr ⟨hd, n, x, hA⟩)
      · exact .inr ⟨hd, n, x, hB⟩
  files := fun f => by
    rw [h'.files, h.files]
    constructor
    · rintro ((hf | ⟨hd, n, x, r, hA, hl⟩) | ⟨hd, n, x, r, hB, hl⟩)
      · exact .inl hf
      · exact .inr ⟨hd, n, x, r, .inl hA, hl⟩
      · exact .inr ⟨hd, n, x, r, .inr hB, hl⟩
    · rintro (hf | ⟨hd, n, x, r, hA | hB, hl⟩)
      · exact .inl (.inl hf)
      · exact .inl (.inr ⟨hd, n, x, r, hA, hl⟩)
      · exact .inr ⟨hd, n, x, r, hB, hl⟩
  visitedSymbols := h'.visitedSymbols.trans h.visitedSymbols
  frontierCapped := h'.frontierCapped.trans h.frontierCapped
  cache := h'.cache.trans h.cache

variable [DecidableEq Name] [DecidableEq Kind]

theorem follow_followed {pushFile : Bool} {n : Node Symbol File} {reason : Reason Name Kind}
    {r : Reference File Name Kind} (hpush : pushFile = true ↔ req.fileForm = true ∨ ∃ g, n = .file g) :
    Followed E req depth s (follow req depth pushFile reason s r) fun n' x r' => n' = n ∧ x = reason ∧ r' = r := by
  have htable : ∀ P, TableIs s.found P → TableIs (s.found.put r.fromFile (Found.note depth reason))
      fun f d x => P f d x ∨ d = depth ∧ ∃ n' r', (n' = n ∧ x = reason ∧ r' = r) ∧ r'.fromFile = f := by
    refine fun P hP => (hP.note r.fromFile depth reason).congr fun f d x => or_congr_right ?_
    constructor
    · rintro ⟨rfl, rfl, rfl⟩
      exact ⟨rfl, n, r, ⟨rfl, rfl, rfl⟩, rfl⟩
    · rintro ⟨rfl, n', r', ⟨rfl, rfl, rfl⟩, rfl⟩
      exact ⟨rfl, rfl, rfl⟩
  by_cases hdepth : depth < depth32 req
  · rw [follow, if_pos hdepth]
    refine ⟨htable, fun r' => ?_, fun f => ?_, rfl, rfl, rfl⟩
    · rw [List.mem_append, List.mem_singleton]
      refine or_congr_right ⟨fun h => ⟨hdepth, n, reason, rfl, rfl, h⟩, ?_⟩
      rintro ⟨-, n', x, -, -, h⟩
      exact h
    · have hleads : (∃ n' x r', (n' = n ∧ x = reason ∧ r' = r) ∧ LeadsTo E req.fileForm n' r' (.file f)) ↔
          f = r.fromFile ∧ pushFile = true := by
        rw [hpush]
        constructor
        · rintro ⟨n', x, r', ⟨rfl, rfl, rfl⟩, hl⟩
          exact hl
        · exact fun hl => ⟨n, reason, r, ⟨rfl, rfl, rfl⟩, hl⟩
      rw [hleads, and_iff_right hdepth]
      cases pushFile with
      | true =>
        rw [if_pos rfl, List.mem_append, List.mem_singleton]
        exact or_congr_right (and_iff_left rfl).symm
      | false =>
        rw [if_neg Bool.false_ne_true]
        exact ⟨.inl, fun h => h.resolve_right fun hf => nomatch hf.2⟩
  · rw [follow, if_neg hdepth]
    refine ⟨htable, fun r' => ?_, fun f => ?_, rfl, rfl, rfl⟩
    · exact ⟨.inl, fun h => h.resolve_right fun hd => hdepth hd.1⟩
    · exact ⟨.inl, fun h => h.resolve_right fun hd => hdepth hd.1⟩

end Followed

section Follows

variable {Symbol File Name Kind : Type} [DecidableEq File] (E : Evidence Symbol File Name Kind)
  (req : ImpactRequest Symbol File) (depth : Nat)

/-- Some of these edges have been followed, and without a budget all of them. -/
structure Follows (s s' : Run Symbol File Name Kind Bool) (files : List File) (full : Edges Symbol File Name Kind) :
    Prop where
  part : ∃ A, Followed E req depth s s' A ∧ ∀ n x r, A n x r → full n x r
  all : s.budget = none → Followed E req depth s s' full
  unlimited : s.budget = none → s'.budget = none ∧ s'.budgetSpent = s.budgetSpent
  grows : ∀ f ∈ s.visitedFiles, f ∈ s'.visitedFiles
  visited : s.budget = none → ∀ f, f ∈ s'.visitedFiles ↔ f ∈ s.visitedFiles ∨ f ∈ files

variable {E req depth} {s s' s'' : Run Symbol File Name Kind Bool} {files files' : List File}
  {full full' : Edges Symbol File Name Kind}

/-- A step that takes no notice of the budget. -/
theorem Followed.follows (h : Followed E req depth s s' full) (hbudget : s'.budget = s.budget)
    (hspent : s'.budgetSpent = s.budgetSpent) (hvisited : s'.visitedFiles = s.visitedFiles) :
    Follows E req depth s s' [] full where
  part := ⟨full, h, fun _ _ _ h => h⟩
  all := fun _ => h
  unlimited := fun hnone => ⟨hbudget.trans hnone, hspent⟩
  grows := fun _ hf => hvisited ▸ hf
  visited := fun _ f => by rw [hvisited, or_iff_left List.not_mem_nil]

/-- A step that spends a budget. -/
theorem Follows.spend (h : Followed E req depth s s' fun _ _ _ => False) (hvisited : s'.visitedFiles = s.visitedFiles)
    (hsome : s.budget ≠ none) : Follows E req depth s s' [] fun _ _ _ => False where
  part := ⟨_, h, fun _ _ _ h => h⟩
  all := fun hnone => absurd hnone hsome
  unlimited := fun hnone => absurd hnone hsome
  grows := fun _ hf => hvisited ▸ hf
  visited := fun hnone => absurd hnone hsome

/-- A budget that has run out leaves the rest. -/
theorem Follows.stop (h : Follows E req depth s s' files fun _ _ _ => False) (hsome : s.budget ≠ none) :
    Follows E req depth s s' files' full where
  part := by
    obtain ⟨A, hA, hsub⟩ := h.part
    exact ⟨A, hA, fun n x r hnone => (hsub n x r hnone).elim⟩
  all := fun hnone => absurd hnone hsome
  unlimited := fun hnone => absurd hnone hsome
  grows := h.grows
  visited := fun hnone => absurd hnone hsome

theorem Follows.trans (h : Follows E req depth s s' files full) (h' : Follows E req depth s' s'' files' full') :
    Follows E req depth s s'' (files ++ files') fun n x r => full n x r ∨ full' n x r where
  part := by
    obtain ⟨A, hA, hsub⟩ := h.part
    obtain ⟨B, hB, hsub'⟩ := h'.part
    exact ⟨_, hA.trans hB, fun n x r => Or.imp (hsub n x r) (hsub' n x r)⟩
  all := fun hnone => (h.all hnone).trans (h'.all (h.unlimited hnone).1)
  unlimited := fun hnone =>
    have hmid := h.unlimited hnone
    ⟨(h'.unlimited hmid.1).1, (h'.unlimited hmid.1).2.trans hmid.2⟩
  grows := fun f hf => h'.grows f (h.grows f hf)
  visited := fun hnone f => by
    rw [h'.visited (h.unlimited hnone).1, h.visited hnone, List.mem_append, or_assoc]

theorem Follows.congr (h : Follows E req depth s s' files full) (hfull : ∀ n x r, full n x r ↔ full' n x r)
    (hfiles : ∀ f, f ∈ s.visitedFiles ∨ f ∈ files ↔ f ∈ s.visitedFiles ∨ f ∈ files') :
    Follows E req depth s s' files' full' := by
  have heq : full = full' := by
    funext n x r
    exact propext (hfull n x r)
  subst heq
  exact ⟨h.part, h.all, h.unlimited, h.grows, fun hnone f => (h.visited hnone f).trans (hfiles f)⟩

theorem Follows.refl : Follows E req depth s s [] fun _ _ _ => False := Followed.refl.follows rfl rfl rfl

/-- A step that follows nothing, and then another. -/
theorem Follows.after (h : Follows E req depth s s' files fun _ _ _ => False)
    (h' : Follows E req depth s' s'' files' full) : Follows E req depth s s'' (files ++ files') full :=
  (h.trans h').congr (fun n x r => by rw [false_or]) fun _ => Iff.rfl

theorem Follows.foldl {α : Type} {f : Run Symbol File Name Kind Bool → α → Run Symbol File Name Kind Bool}
    {A : α → Edges Symbol File Name Kind} {l : List α} (h : ∀ a ∈ l, ∀ s, Follows E req depth s (f s a) [] (A a)) :
    ∀ s, Follows E req depth s (l.foldl f s) [] fun n x r => ∃ a ∈ l, A a n x r := by
  induction l with
  | nil => exact fun s => Follows.refl.congr (fun n x r => ⟨False.elim, fun ⟨_, ha, _⟩ => nomatch ha⟩) fun _ => Iff.rfl
  | cons a l ih =>
    intro s
    have hhead := h a (List.mem_cons_self ..) s
    have htail := ih (fun b hb => h b (List.mem_cons_of_mem _ hb)) (f s a)
    refine (hhead.trans htail).congr (fun n x r => ?_) fun _ => Iff.rfl
    rw [List.exists_mem_cons_iff]

/-- What a look at the clock says is no news without a budget. -/
theorem lookAt_follows (s : Run Symbol File Name Kind Bool) (index : Nat) :
    Follows E req depth s (lookAt s index).2 [] (fun _ _ _ => False) ∧ ((lookAt s index).1 = true → s.budget ≠ none) := by
  by_cases hindex : index % 256 = 0
  · cases hbudget : s.budget with
    | none =>
      have hlook : lookAt s index = (false, s) := by rw [lookAt, if_pos hindex, hbudget]
      rw [hlook]
      exact ⟨.refl, fun h => nomatch h⟩
    | some b =>
      have hsome : s.budget ≠ none := by
        rw [hbudget]
        exact Option.some_ne_none b
      refine ⟨?_, fun _ => hbudget ▸ hsome⟩
      rw [lookAt, if_pos hindex, hbudget]
      dsimp only
      split
      · exact .spend (.still rfl rfl rfl rfl rfl rfl) rfl hsome
      · exact .spend (.still rfl rfl rfl rfl rfl rfl) rfl hsome
  · have hlook : lookAt s index = (false, s) := by rw [lookAt, if_neg hindex]
    rw [hlook]
    exact ⟨.refl, fun h => nomatch h⟩

theorem admitFile_follows : Follows E req depth s (admitFile E.lookup req s).2 [] (fun _ _ _ => False) ∧
    ((admitFile E.lookup req s).1 = false → s.budget ≠ none) := by
  cases hbudget : s.budget with
  | none =>
    have hadmission : admitFile E.lookup req s = (true, s) := by rw [admitFile, hbudget]
    rw [hadmission]
    exact ⟨.refl, fun h => nomatch h⟩
  | some b =>
    have hsome : s.budget ≠ none := by
      rw [hbudget]
      exact Option.some_ne_none b
    refine ⟨?_, fun _ => hbudget ▸ hsome⟩
    rw [admitFile, hbudget]
    dsimp only
    split
    · exact .spend (.still rfl rfl rfl rfl rfl rfl) rfl hsome
    split
    · exact .spend (.still rfl rfl rfl rfl rfl rfl) rfl hsome
    split
    · exact .spend (.still rfl rfl rfl rfl rfl rfl) rfl hsome
    · exact .spend (.still rfl rfl rfl rfl rfl rfl) rfl hsome

variable [DecidableEq Name] [DecidableEq Kind]

theorem follow_follows {pushFile : Bool} {n : Node Symbol File} {reason : Reason Name Kind}
    {r : Reference File Name Kind} (hpush : pushFile = true ↔ req.fileForm = true ∨ ∃ g, n = .file g) :
    Follows E req depth s (follow req depth pushFile reason s r) [] fun n' x r' => n' = n ∧ x = reason ∧ r' = r := by
  refine (follow_followed hpush).follows ?_ ?_ ?_ <;>
  · unfold follow
    dsimp only
    split <;> rfl

theorem followReference_follows {symbol : Symbol} {r : Reference File Name Kind} (hr : r ∈ E.references symbol) :
    Follows E req depth s (followReference E.lookup req depth symbol s r) []
      fun n x r' => r' = r ∧ n = .symbol symbol ∧ Edge E req n x r' := by
  by_cases horigin : r.fromFile ∈ originFiles E.lookup req
  · rw [followReference, if_pos horigin]
    refine Follows.refl.congr (fun n x r' => ⟨False.elim, ?_⟩) fun _ => Iff.rfl
    rintro ⟨rfl, rfl, -, hnot, -⟩
    exact hnot horigin
  · rw [followReference, if_neg horigin]
    refine (follow_follows (n := .symbol symbol) ?_).congr (fun n x r' => ?_) fun _ => Iff.rfl
    · exact ⟨.inl, fun h => h.resolve_right fun ⟨_, hg⟩ => nomatch hg⟩
    · constructor
      · rintro ⟨rfl, rfl, rfl⟩
        exact ⟨rfl, rfl, hr, horigin, rfl⟩
      · rintro ⟨rfl, rfl, -, -, rfl⟩
        exact ⟨rfl, rfl, rfl⟩

theorem followLevel_follows {level : List (Symbol × List (Reference File Name Kind))}
    (hrows : ∀ row ∈ level, row.2 = E.references row.1) :
    Follows E req depth s (followLevel E.lookup req depth level s) []
      fun n x r => ∃ symbol ∈ level.map Prod.fst, n = .symbol symbol ∧ Edge E req n x r := by
  have hrow : ∀ row ∈ level, ∀ s, Follows E req depth s
      (row.2.foldl (followReference E.lookup req depth row.1) s) []
      fun n x r => n = .symbol row.1 ∧ Edge E req n x r := by
    intro row hmem s
    rw [hrows row hmem]
    have hone : ∀ r ∈ E.references row.1, ∀ s, Follows E req depth s (followReference E.lookup req depth row.1 s r) []
        fun n x r' => r' = r ∧ n = .symbol row.1 ∧ Edge E req n x r' :=
      fun r hr s => followReference_follows hr
    refine (Follows.foldl hone s).congr (fun n x r => ?_) fun _ => Iff.rfl
    constructor
    · rintro ⟨_, -, rfl, h⟩
      exact h
    · rintro ⟨rfl, hedge⟩
      exact ⟨r, hedge.1, rfl, rfl, hedge⟩
  refine (Follows.foldl hrow s).congr (fun n x r => ?_) fun _ => Iff.rfl
  constructor
  · rintro ⟨row, hmem, hn, hedge⟩
    exact ⟨row.1, List.mem_map.mpr ⟨row, hmem, rfl⟩, hn, hedge⟩
  · rintro ⟨symbol, hmem, hn, hedge⟩
    obtain ⟨row, hrow, rfl⟩ := List.mem_map.mp hmem
    exact ⟨row, hrow, hn, hedge⟩

theorem followImport_follows (file : File) {r : Reference File Name Kind} :
    Follows E req depth s (followImport E.lookup req depth s r) [] fun n x r' => n = .file file ∧ r' = r ∧
      r'.fromFile ∉ originFiles E.lookup req ∧ x = ⟨r'.toName, r'.kind, r'.line⟩ := by
  by_cases horigin : r.fromFile ∈ originFiles E.lookup req
  · rw [followImport, if_pos horigin]
    refine Follows.refl.congr (fun n x r' => ⟨False.elim, ?_⟩) fun _ => Iff.rfl
    rintro ⟨-, rfl, hnot, -⟩
    exact hnot horigin
  · rw [followImport, if_neg horigin]
    have hfollow : Follows E req depth s (follow req depth true ⟨r.toName, r.kind, r.line⟩ s r) []
        fun n x r' => n = .file file ∧ x = ⟨r.toName, r.kind, r.line⟩ ∧ r' = r :=
      follow_follows ⟨fun _ => .inr ⟨file, rfl⟩, fun _ => rfl⟩
    have hcounted : Followed E req depth (follow req depth true ⟨r.toName, r.kind, r.line⟩ s r)
        { follow req depth true ⟨r.toName, r.kind, r.line⟩ s r with seedCount := max s.seedCount 1 }
        fun _ _ _ => False := .still rfl rfl rfl rfl rfl rfl
    refine (hfollow.trans (hcounted.follows rfl rfl rfl)).congr (fun n x r' => ?_) fun _ => Iff.rfl
    constructor
    · rintro (⟨rfl, rfl, rfl⟩ | h)
      · exact ⟨rfl, rfl, horigin, rfl⟩
      · exact h.elim
    · rintro ⟨rfl, rfl, -, rfl⟩
      exact .inl ⟨rfl, rfl, rfl⟩

theorem followMatching_follows {file : File} {imports : List (Reference File Name Kind)} :
    ∀ {index : Nat} {s : Run Symbol File Name Kind Bool},
      Follows E req depth s (followMatching E.lookup req depth file imports index s).2 []
        fun n x r => n = .file file ∧ r ∈ imports ∧ E.targetsFile r file = true ∧
          r.fromFile ∉ originFiles E.lookup req ∧ x = ⟨r.toName, r.kind, r.line⟩ := by
  induction imports with
  | nil => exact Follows.refl.congr (fun n x r => ⟨False.elim, fun h => nomatch h.2.1⟩) fun _ => Iff.rfl
  | cons r rest ih =>
    intro index s
    obtain ⟨hlook, hstop⟩ : Follows E req depth s (lookAt s index).2 [] (fun _ _ _ => False) ∧ _ := lookAt_follows s index
    have hcons : followMatching E.lookup req depth file (r :: rest) index s =
        if (lookAt s index).1 then ([], (lookAt s index).2)
        else if E.targetsFile r file then
          (index :: (followMatching E.lookup req depth file rest (index + 1)
            (followImport E.lookup req depth (lookAt s index).2 r)).1,
          (followMatching E.lookup req depth file rest (index + 1)
            (followImport E.lookup req depth (lookAt s index).2 r)).2)
        else followMatching E.lookup req depth file rest (index + 1) (lookAt s index).2 := rfl
    rw [hcons]
    split
    · rename_i hhit
      exact hlook.stop (hstop hhit)
    split
    · rename_i hmatch
      refine ((hlook.after (followImport_follows file)).trans ih).congr (fun n x r' => ?_) fun _ => Iff.rfl
      constructor
      · rintro (⟨hn, rfl, horigin, hx⟩ | ⟨hn, hr', hmatch', horigin, hx⟩)
        · exact ⟨hn, List.mem_cons_self .., hmatch, horigin, hx⟩
        · exact ⟨hn, List.mem_cons_of_mem _ hr', hmatch', horigin, hx⟩
      · rintro ⟨hn, hr', hmatch', horigin, hx⟩
        rcases List.mem_cons.mp hr' with rfl | hr'
        · exact .inl ⟨hn, rfl, horigin, hx⟩
        · exact .inr ⟨hn, hr', hmatch', horigin, hx⟩
    · rename_i hmatch
      refine (hlook.after ih).congr (fun n x r' => ?_) fun _ => Iff.rfl
      constructor
      · rintro ⟨hn, hr', hmatch', horigin, hx⟩
        exact ⟨hn, List.mem_cons_of_mem _ hr', hmatch', horigin, hx⟩
      · rintro ⟨hn, hr', hmatch', horigin, hx⟩
        rcases List.mem_cons.mp hr' with rfl | hr'
        · exact absurd hmatch' hmatch
        · exact ⟨hn, hr', hmatch', horigin, hx⟩

/-- Of a file of the frontier the matching imports are followed. -/
theorem followFile_follows {file : File} : ∃ s', followFile E.lookup req depth file s = some s' ∧
    Follows E req depth s s' [] fun n x r => n = .file file ∧ Edge E req n x r := by
  refine ⟨(followMatching E.lookup req depth file (walkImports E.lookup req) 0 s).2, ?_, ?_⟩
  · have hfile : followFile E.lookup req depth file s =
        if (followMatching E.lookup req depth file (walkImports E.lookup req) 0 s).2.budgetSpent then
          some (followMatching E.lookup req depth file (walkImports E.lookup req) 0 s).2
        else some (followMatching E.lookup req depth file (walkImports E.lookup req) 0 s).2 := rfl
    rw [hfile, ite_self]
  · refine followMatching_follows.congr (fun n x r => ?_) fun _ => Iff.rfl
    constructor
    · rintro ⟨rfl, hr, hmatch, horigin, hx⟩
      exact ⟨rfl, hr, hmatch, horigin, hx⟩
    · rintro ⟨rfl, hr, hmatch, horigin, hx⟩
      exact ⟨rfl, hr, hmatch, horigin, hx⟩

theorem followFiles_follows {files : List File} : ∀ {s : Run Symbol File Name Kind Bool},
    ∃ s', followFiles E.lookup req depth files s = some s' ∧ Follows E req depth s s' files
      fun n x r => ∃ file ∈ files, file ∉ s.visitedFiles ∧ n = .file file ∧ Edge E req n x r := by
  induction files with
  | nil =>
    exact fun {s} => ⟨s, rfl, Follows.refl.congr (fun n x r => ⟨False.elim, fun ⟨_, h, _⟩ => nomatch h⟩) fun _ => Iff.rfl⟩
  | cons file rest ih =>
    intro s
    by_cases hfile : file ∈ s.visitedFiles
    · obtain ⟨s', hs', hfollows⟩ := @ih s
      refine ⟨s', by rw [followFiles, if_pos hfile, hs'], hfollows.congr (fun n x r => ?_) fun f => ?_⟩
      · rw [List.exists_mem_cons_iff]
        exact ⟨.inr, fun h => h.resolve_left fun hnew => hnew.1 hfile⟩
      · rw [List.mem_cons]
        constructor
        · exact Or.imp_right .inr
        · rintro (hf | rfl | hf)
          · exact .inl hf
          · exact .inl hfile
          · exact .inr hf
    · have hmark : Follows E req depth s { s with visitedFiles := s.visitedFiles ++ [file] } [file] fun _ _ _ => False :=
        ⟨⟨_, .still rfl rfl rfl rfl rfl rfl, fun _ _ _ h => h⟩, fun _ => .still rfl rfl rfl rfl rfl rfl,
          fun hnone => ⟨hnone, rfl⟩, fun f hf => List.mem_append_left _ hf, fun _ f => List.mem_append⟩
      obtain ⟨hadmission, hrefused⟩ : Follows E req depth { s with visitedFiles := s.visitedFiles ++ [file] }
        (admitFile E.lookup req { s with visitedFiles := s.visitedFiles ++ [file] }).2 [] (fun _ _ _ => False) ∧ _ :=
        admitFile_follows
      rw [followFiles, if_neg hfile]
      dsimp only
      cases hpaid : (admitFile E.lookup req { s with visitedFiles := s.visitedFiles ++ [file] }).1 with
      | false => exact ⟨_, rfl, (hmark.after hadmission).stop (hrefused hpaid)⟩
      | true =>
        obtain ⟨s₁, hs₁, hfollows⟩ : ∃ s₁, followFile E.lookup req depth file
            (admitFile E.lookup req { s with visitedFiles := s.visitedFiles ++ [file] }).2 = some s₁ ∧
            Follows E req depth _ s₁ [] _ := followFile_follows
        obtain ⟨s₂, hs₂, hrest⟩ := @ih s₁
        have hone := (hmark.after hadmission).after hfollows
        have hboth := hone.trans hrest
        refine ⟨s₂, by rw [Bool.not_true, if_neg Bool.false_ne_true, hs₁, Option.bind_some, hs₂],
          ?_, fun hnone => ?_, hboth.unlimited, hboth.grows, hboth.visited⟩
        · obtain ⟨A, hA, hsub⟩ := hboth.part
          refine ⟨A, hA, fun n x r hn => ?_⟩
          rcases hsub n x r hn with hn | ⟨g, hg, hnew, hn⟩
          · exact ⟨file, List.mem_cons_self .., hfile, hn⟩
          · exact ⟨g, List.mem_cons_of_mem _ hg, mt (hone.grows g) hnew, hn⟩
        · refine (hboth.all hnone).congr fun n x r => ?_
          rw [List.exists_mem_cons_iff, and_iff_right hfile]
          have hvisited : ∀ g, g ∈ s₁.visitedFiles ↔ g ∈ s.visitedFiles ∨ g = file := fun g =>
            (hone.visited hnone g).trans (or_congr_right List.mem_singleton)
          constructor
          · rintro (hn | ⟨g, hg, hnew, hn⟩)
            · exact .inl hn
            · rw [hvisited, not_or] at hnew
              exact .inr ⟨g, hg, hnew.1, hn⟩
          · rintro (hn | ⟨g, hg, hnew, hn⟩)
            · exact .inl hn
            · by_cases hgf : g = file
              · subst hgf
                exact .inl hn
              · refine .inr ⟨g, hg, ?_, hn⟩
                rw [hvisited, not_or]
                exact ⟨hnew, hgf⟩

end Follows


section Load

variable {Symbol File Name Kind : Type} [DecidableEq Symbol] {E : Evidence Symbol File Name Kind}

omit [DecidableEq Symbol] in
/-- The rows of a level are those of symbols of its frontier, and only these can cap the context. -/
theorem load_rows {admitted : List Nat} {frontier : List Symbol} : ∀ {idx : Nat} {b : Budget} {capped : Bool},
    (∀ row ∈ (load E.lookup admitted frontier idx b capped).1, row.1 ∈ frontier ∧ row.2 = E.references row.1) ∧
    ((load E.lookup admitted frontier idx b capped).2.2 = true →
      capped = true ∨ ∃ symbol ∈ frontier, E.contextCapped symbol = true) := by
  induction frontier with
  | nil => exact ⟨fun _ h => (nomatch h), .inl⟩
  | cons symbol rest ih =>
    intro idx b capped
    rw [load]
    split
    · exact ⟨fun row hrow => (ih.1 row hrow).imp_left (List.mem_cons_of_mem _),
        fun h => (ih.2 h).imp_right fun ⟨x, hx, hc⟩ => ⟨x, List.mem_cons_of_mem _ hx, hc⟩⟩
    dsimp only
    split
    · exact ⟨fun _ h => (nomatch h), .inl⟩
    · constructor
      · intro row hrow
        rcases List.mem_cons.mp hrow with rfl | hrow
        · exact ⟨List.mem_cons_self .., rfl⟩
        · exact (ih.1 row hrow).imp_left (List.mem_cons_of_mem _)
      · intro h
        rcases ih.2 h with h | ⟨x, hx, hc⟩
        · rcases Bool.or_eq_true_iff.mp h with h | h
          · exact .inl h
          · exact .inr ⟨symbol, List.mem_cons_self .., h⟩
        · exact .inr ⟨x, List.mem_cons_of_mem _ hx, hc⟩

/-- Without a budget the rows are those of the symbols that are new. -/
structure LoadedAll (E : Evidence Symbol File Name Kind) (frontier visited : List Symbol) (capped : Bool)
    (level : List (Symbol × List (Reference File Name Kind)) × List Symbol × Bool) : Prop where
  rows : ∀ row ∈ level.1, row.2 = E.references row.1
  new : ∀ x, x ∈ level.1.map Prod.fst ↔ x ∈ frontier ∧ x ∉ visited
  seen : ∀ x, x ∈ level.2.1 ↔ x ∈ visited ∨ x ∈ frontier
  context : level.2.2 = true ↔ capped = true ∨ ∃ x, (x ∈ frontier ∧ x ∉ visited) ∧ E.contextCapped x = true

theorem loadAll_loaded {frontier : List Symbol} : ∀ {visited : List Symbol} {capped : Bool},
    LoadedAll E frontier visited capped (loadAll E.lookup frontier visited capped) := by
  induction frontier with
  | nil =>
    exact ⟨fun _ h => (nomatch h), fun _ => ⟨nofun, fun h => (nomatch h.1)⟩, fun _ => ⟨.inl, fun h => h.resolve_right nofun⟩,
      ⟨.inl, fun h => h.resolve_right fun ⟨_, h, _⟩ => nomatch h.1⟩⟩
  | cons symbol rest ih =>
    intro visited capped
    by_cases hsymbol : symbol ∈ visited
    · have hcons : ∀ x, x ∈ symbol :: rest ∧ x ∉ visited ↔ x ∈ rest ∧ x ∉ visited := fun x => by
        rw [List.mem_cons, or_and_right]
        exact ⟨fun h => h.resolve_left fun h => h.2 (h.1 ▸ hsymbol), .inr⟩
      rw [loadAll, if_pos hsymbol]
      refine ⟨ih.rows, fun x => (ih.new x).trans (hcons x).symm, fun x => (ih.seen x).trans ?_, ?_⟩
      · rw [List.mem_cons]
        exact ⟨Or.imp_right .inr, fun h => h.elim .inl fun h => h.elim (fun h => .inl (h ▸ hsymbol)) .inr⟩
      · simp only [hcons]
        exact ih.context
    · have hcons : ∀ x, x ∈ symbol :: rest ∧ x ∉ visited ↔ x = symbol ∨ x ∈ rest ∧ x ∉ visited ++ [symbol] := fun x => by
        rw [List.mem_cons, List.mem_append, List.mem_singleton, not_or]
        by_cases hx : x = symbol
        · subst hx
          exact ⟨fun _ => .inl rfl, fun _ => ⟨.inl rfl, hsymbol⟩⟩
        · rw [or_iff_right hx, or_iff_right hx, and_iff_left hx]
      have hrest := @ih (visited ++ [symbol]) (capped || E.contextCapped symbol)
      rw [loadAll, if_neg hsymbol]
      refine ⟨?_, fun x => ?_, fun x => ?_, ?_⟩
      · intro row hrow
        rcases List.mem_cons.mp hrow with rfl | hrow
        · rfl
        · exact hrest.rows row hrow
      · rw [hcons, ← hrest.new, List.map_cons, List.mem_cons]
        rfl
      · refine (hrest.seen x).trans ?_
        rw [List.mem_append, List.mem_singleton, List.mem_cons, or_assoc]
      · refine hrest.context.trans ?_
        simp only [hcons, Bool.or_eq_true, or_and_right, exists_or, exists_eq_left, or_assoc]

end Load

end Impact
end Graph
end CodeSage
