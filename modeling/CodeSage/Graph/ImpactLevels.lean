import CodeSage.Graph.ImpactFollow
import Mathlib.Data.List.Dedup

/-!
# CodeSage.Graph.ImpactLevels

The levels of the impact walk: what one level adds to the dependents known and to the nodes visited, and from it, by
induction on the levels left, that a walk finds only dependents (`LevelInv`) and, without a budget and uncut, all of them
(`Covers`).
-/

namespace CodeSage
namespace Graph
namespace Impact

open Lib

section Load

variable {Symbol File Name Kind : Type} [DecidableEq Symbol] {E : Evidence Symbol File Name Kind}
  (s : Run Symbol File Name Kind Bool) (frontier : List Symbol)

theorem loadLevel_free {s : Run Symbol File Name Kind Bool} {frontier : List Symbol} (hnone : s.budget = none) :
    LoadedAll E frontier s.visitedSymbols s.cache ((loadLevel E.lookup s frontier).1,
      (loadLevel E.lookup s frontier).2.visitedSymbols, (loadLevel E.lookup s frontier).2.cache) ∧
    (loadLevel E.lookup s frontier).2.budget = none ∧
    (loadLevel E.lookup s frontier).2.budgetSpent = s.budgetSpent := by
  have hload : loadLevel E.lookup s frontier = ((loadAll E.lookup frontier s.visitedSymbols s.cache).1,
      { s with
        cache := (loadAll E.lookup frontier s.visitedSymbols s.cache).2.2
        visitedSymbols := (loadAll E.lookup frontier s.visitedSymbols s.cache).2.1 }) := by
    rw [loadLevel, hnone]
  rw [hload]
  exact ⟨loadAll_loaded, hnone, rfl⟩

/-- What loading a level leaves of the run. -/
theorem loadLevel_frame : ∃ budget cache visited spent, (loadLevel E.lookup s frontier).2 =
    { s with budget := budget, cache := cache, visitedSymbols := visited, budgetSpent := spent } := by
  unfold loadLevel
  split
  · exact ⟨_, _, _, _, rfl⟩
  · exact ⟨_, _, _, _, rfl⟩

theorem loadLevel_rows : (∀ row ∈ (loadLevel E.lookup s frontier).1, row.1 ∈ frontier ∧ row.2 = E.references row.1) ∧
    ((loadLevel E.lookup s frontier).2.cache = true →
      s.cache = true ∨ ∃ x ∈ frontier, E.contextCapped x = true) := by
  cases hbudget : s.budget with
  | some b =>
    rw [loadLevel, hbudget]
    exact load_rows
  | none =>
    obtain ⟨hall, -, -⟩ : LoadedAll E frontier _ _ _ ∧ _ := loadLevel_free hbudget
    refine ⟨fun row hrow => ⟨((hall.new row.1).mp (List.mem_map.mpr ⟨row, hrow, rfl⟩)).1, hall.rows row hrow⟩, ?_⟩
    exact fun h => (hall.context.mp h).imp_right fun ⟨x, hx, hc⟩ => ⟨x, hx.1, hc⟩

end Load

section Level

variable {Symbol File Name Kind : Type} [DecidableEq File]

def Visited (s : Run Symbol File Name Kind Bool) : Node Symbol File → Prop
  | .symbol x => x ∈ s.visitedSymbols
  | .file f => f ∈ s.visitedFiles

/-- The run at the start of a level. -/
def Run.cleared (s : Run Symbol File Name Kind Bool) : Run Symbol File Name Kind Bool :=
  { s with nextFiles := [], pendingCallers := [], budgetSpent := false }

variable (E : Evidence Symbol File Name Kind) (req : ImpactRequest Symbol File) (depth : Nat)
  (s : Run Symbol File Name Kind Bool) (frontier : List Symbol) (files : List File)

/-- What the level has followed when these are its edges. -/
structure LevelEdges (s' : Run Symbol File Name Kind Bool) (A : Edges Symbol File Name Kind) : Prop where
  found : ∀ P, TableIs s.found P →
    TableIs s'.found fun f d x => P f d x ∨ d = depth ∧ ∃ n r, A n x r ∧ r.fromFile = f
  callers : ∀ r, r ∈ s'.pendingCallers ↔ depth < depth32 req ∧ ∃ n x, A n x r
  files : ∀ f, f ∈ s'.nextFiles ↔ depth < depth32 req ∧ ∃ n x r, A n x r ∧ LeadsTo E req.fileForm n r (.file f)

/-- A level without a budget: the nodes of the frontier that are new. -/
structure LevelFree (s' : Run Symbol File Name Kind Bool) : Prop where
  edges : LevelEdges E req depth s s' fun n x r =>
    (InFrontier frontier files n ∧ ¬Visited s n) ∧ Edge E req n x r
  budget : s'.budget = none
  budgetSpent : s'.budgetSpent = false
  visited : ∀ n, Visited s' n ↔ Visited s n ∨ InFrontier frontier files n
  context : s'.cache = true ↔
    s.cache = true ∨ ∃ x, (x ∈ frontier ∧ x ∉ s.visitedSymbols) ∧ E.contextCapped x = true

/-- A level: some of the edges of its frontier. -/
structure LevelDone (s' : Run Symbol File Name Kind Bool) : Prop where
  part : ∃ A, LevelEdges E req depth s s' A ∧ ∀ n x r, A n x r → InFrontier frontier files n ∧ Edge E req n x r
  frontierCapped : s'.frontierCapped = s.frontierCapped
  context : s'.cache = true → s.cache = true ∨ ∃ x ∈ frontier, E.contextCapped x = true
  free : s.budget = none → LevelFree E req depth s frontier files s'

variable {E req depth s frontier files}

theorem Followed.edges {t s' : Run Symbol File Name Kind Bool} {A : Edges Symbol File Name Kind}
    (h : Followed E req depth t s' A) (hfound : t.found = s.found) (hcallers : t.pendingCallers = [])
    (hfiles : t.nextFiles = []) : LevelEdges E req depth s s' A where
  found := fun P hP => h.found P (hfound ▸ hP)
  callers := fun r => by rw [h.callers, hcallers, or_iff_right List.not_mem_nil]
  files := fun f => by rw [h.files, hfiles, or_iff_right List.not_mem_nil]

variable [DecidableEq Symbol] [DecidableEq Name] [DecidableEq Kind]

/-- The level up to its end. -/
theorem level_done : ∃ s', followFiles E.lookup req depth files (followLevel E.lookup req depth
    (loadLevel E.lookup s.cleared frontier).1 (loadLevel E.lookup s.cleared frontier).2) = some s' ∧
    LevelDone E req depth s frontier files s' := by
  obtain ⟨hrows, hcontext⟩ := loadLevel_rows (E := E) s.cleared frontier
  obtain ⟨budget, cache, visited, spent, hframe⟩ := loadLevel_frame (E := E) s.cleared frontier
  have hfree : s.cleared.budget = none → LoadedAll E frontier _ _ _ ∧ _ := loadLevel_free
  generalize loadLevel E.lookup s.cleared frontier = level at *
  have hsymbols : Follows E req depth level.2 (followLevel E.lookup req depth level.1 level.2) [] _ :=
    followLevel_follows fun row hrow => (hrows row hrow).2
  obtain ⟨s', hs', hfiles⟩ : ∃ s', followFiles E.lookup req depth files
      (followLevel E.lookup req depth level.1 level.2) = some s' ∧ Follows E req depth _ s' files _ := followFiles_follows
  have hboth := hsymbols.trans hfiles
  obtain ⟨A, hA, hsub⟩ := hboth.part
  refine ⟨s', hs', ⟨⟨A, hA.edges (by rw [hframe]; rfl) (by rw [hframe]; rfl) (by rw [hframe]; rfl), ?_⟩, ?_, ?_, ?_⟩⟩
  · intro n x r hn
    rcases hsub n x r hn with ⟨symbol, hsymbol, rfl, hedge⟩ | ⟨file, hfile, -, rfl, hedge⟩
    · obtain ⟨row, hrow, rfl⟩ := List.mem_map.mp hsymbol
      exact ⟨(hrows row hrow).1, hedge⟩
    · exact ⟨hfile, hedge⟩
  · rw [hA.frontierCapped, hframe]
    rfl
  · rw [hA.cache]
    exact hcontext
  · intro hnone
    obtain ⟨hall, hbudget, hspent⟩ := hfree hnone
    have hfull := hboth.all hbudget
    have hend := hboth.unlimited hbudget
    have hbefore : ∀ f, f ∈ level.2.visitedFiles ↔ f ∈ s.visitedFiles := fun f => by
      rw [hframe]
      exact Iff.rfl
    have hstill : ∀ f, f ∈ (followLevel E.lookup req depth level.1 level.2).visitedFiles ↔ f ∈ s.visitedFiles := fun f =>
      ((hsymbols.visited hbudget f).trans (or_iff_left List.not_mem_nil)).trans (hbefore f)
    have hnew : ∀ n x r, ((∃ symbol ∈ level.1.map Prod.fst, n = .symbol symbol ∧ Edge E req n x r) ∨
        ∃ file ∈ files, file ∉ (followLevel E.lookup req depth level.1 level.2).visitedFiles ∧ n = .file file ∧
          Edge E req n x r) ↔ (InFrontier frontier files n ∧ ¬Visited s n) ∧ Edge E req n x r := by
      intro n x r
      constructor
      · rintro (⟨symbol, hsymbol, rfl, hedge⟩ | ⟨file, hfile, hnot, rfl, hedge⟩)
        · exact ⟨(hall.new symbol).mp hsymbol, hedge⟩
        · exact ⟨⟨hfile, mt (hstill file).mpr hnot⟩, hedge⟩
      · rintro ⟨⟨hn, hnot⟩, hedge⟩
        cases n with
        | symbol symbol => exact .inl ⟨symbol, (hall.new symbol).mpr ⟨hn, hnot⟩, rfl, hedge⟩
        | file file => exact .inr ⟨file, hn, mt (hstill file).mp hnot, rfl, hedge⟩
    refine ⟨(hfull.congr hnew).edges (by rw [hframe]; rfl) (by rw [hframe]; rfl) (by rw [hframe]; rfl), hend.1,
      hend.2.trans hspent, fun n => ?_, ?_⟩
    · cases n with
      | symbol x =>
        change x ∈ s'.visitedSymbols ↔ _
        rw [hfull.visitedSymbols]
        exact hall.seen x
      | file f =>
        refine (hboth.visited hbudget f).trans ?_
        rw [hbefore]
        exact Iff.rfl
    · rw [hfull.cache]
      exact hall.context

end Level

section EndLevel

variable {Symbol File Name Kind : Type} [DecidableEq Symbol] [LinearOrder File] {E : Evidence Symbol File Name Kind}
  {maxFrontier : Nat} {s : Run Symbol File Name Kind Bool}

omit [LinearOrder File] in
theorem mem_nextFrontier {pending : List (Reference File Name Kind)} {x : Symbol} :
    x ∈ nextFrontier E.lookup pending ↔ ∃ r ∈ pending, E.owner r = some x := by
  rw [nextFrontier, List.mem_reverse, List.mem_dedup, List.mem_reverse, List.mem_filterMap]
  exact Iff.rfl

omit [DecidableEq Symbol] in
theorem mem_nextFileFrontier {f : File} : f ∈ nextFileFrontier s ↔ f ∈ s.nextFiles ∧ f ∉ s.visitedFiles := by
  rw [nextFileFrontier, List.mem_filter, List.mem_insertionSort, List.mem_dedup, decide_eq_true_eq]

/-- The end of a level marks the run as capped or not, and cuts the frontiers. -/
structure Ended (E : Evidence Symbol File Name Kind) (s : Run Symbol File Name Kind Bool)
    (e : Run Symbol File Name Kind Bool × Option (List Symbol × List File)) : Prop where
  frame : ∃ budget capped, e.1 = { s with budget := budget, frontierCapped := capped } ∧
    (s.frontierCapped = true → capped = true)
  symbols : ∀ x ∈ (e.2.getD ([], [])).1, ∃ r ∈ s.pendingCallers, E.owner r = some x
  files : ∀ f ∈ (e.2.getD ([], [])).2, f ∈ s.nextFiles

theorem cut_ended (budget : Option Budget) : Ended E s
    (if (cutFrontiers E.lookup maxFrontier { s with budget := budget }).2.1.isEmpty &&
        (cutFrontiers E.lookup maxFrontier { s with budget := budget }).2.2.isEmpty then
      ((cutFrontiers E.lookup maxFrontier { s with budget := budget }).1, none)
    else ((cutFrontiers E.lookup maxFrontier { s with budget := budget }).1,
      some (cutFrontiers E.lookup maxFrontier { s with budget := budget }).2)) := by
  split
  · refine ⟨⟨budget, _, rfl, fun h => ?_⟩, fun _ h => (nomatch h), fun _ h => (nomatch h)⟩
    rw [h, Bool.true_or, Bool.true_or]
  · refine ⟨⟨budget, _, rfl, fun h => ?_⟩, fun x hx => ?_, fun f hf => ?_⟩
    · rw [h, Bool.true_or, Bool.true_or]
    · exact mem_nextFrontier.mp (List.mem_of_mem_take hx)
    · exact (mem_nextFileFrontier.mp (List.mem_of_mem_take hf)).1

theorem endLevel_ended : Ended E s (endLevel E.lookup maxFrontier s) := by
  have hover : ∀ budget, Ended E s ({ s with budget := budget, frontierCapped := true }, none) := fun budget =>
    ⟨⟨budget, true, rfl, fun _ => rfl⟩, fun _ h => (nomatch h), fun _ h => (nomatch h)⟩
  rw [endLevel]
  split
  · exact hover s.budget
  split
  · exact ⟨⟨s.budget, s.frontierCapped, rfl, id⟩, fun _ h => (nomatch h), fun _ h => (nomatch h)⟩
  cases hbudget : s.budget with
  | none => exact cut_ended none
  | some b =>
    dsimp only
    split
    · exact hover _
    · exact cut_ended _

/-- The end of a level without a budget. -/
theorem endLevel_eq (hnone : s.budget = none) (hspent : s.budgetSpent = false) :
    endLevel E.lookup maxFrontier s = if s.pendingCallers.isEmpty && s.nextFiles.isEmpty then (s, none)
      else if (cutFrontiers E.lookup maxFrontier s).2.1.isEmpty && (cutFrontiers E.lookup maxFrontier s).2.2.isEmpty then
        ((cutFrontiers E.lookup maxFrontier s).1, none)
      else ((cutFrontiers E.lookup maxFrontier s).1, some (cutFrontiers E.lookup maxFrontier s).2) := by
  obtain ⟨cache, budget, found, visitedSymbols, visitedFiles, seedCount, callers, files, spent, capped⟩ := s
  obtain rfl : budget = none := hnone
  obtain rfl : spent = false := hspent
  rfl

/-- Without a budget and uncut the next frontiers are whole. -/
theorem endLevel_free (hnone : s.budget = none) (hspent : s.budgetSpent = false)
    (huncut : (endLevel E.lookup maxFrontier s).1.frontierCapped = false) :
    (endLevel E.lookup maxFrontier s).1.budget = none ∧
      (endLevel E.lookup maxFrontier s).2.getD ([], []) = (nextFrontier E.lookup s.pendingCallers, nextFileFrontier s) := by
  rw [endLevel_eq hnone hspent] at huncut ⊢
  split
  · rename_i hempty
    rw [Bool.and_eq_true, List.isEmpty_iff, List.isEmpty_iff] at hempty
    refine ⟨hnone, ?_⟩
    rw [nextFrontier, nextFileFrontier, hempty.1, hempty.2]
    rfl
  · rename_i hsome
    rw [if_neg hsome] at huncut
    have hcut : (cutFrontiers E.lookup maxFrontier s).1.frontierCapped = false := by
      split at huncut <;> exact huncut
    rw [cutFrontiers, Bool.or_eq_false_iff, Bool.or_eq_false_iff, decide_eq_false_iff_not, decide_eq_false_iff_not] at hcut
    have hwhole : (cutFrontiers E.lookup maxFrontier s).2 =
        (nextFrontier E.lookup s.pendingCallers, nextFileFrontier s) := by
      rw [cutFrontiers, List.take_of_length_le (Nat.le_of_not_lt hcut.1.2), List.take_of_length_le (Nat.le_of_not_lt hcut.2)]
    split
    · rename_i hempty
      rw [hwhole, Bool.and_eq_true, List.isEmpty_iff, List.isEmpty_iff] at hempty
      exact ⟨hnone, (Prod.ext hempty.1 hempty.2).symm⟩
    · exact ⟨hnone, hwhole⟩

end EndLevel

section Invariants

variable {Symbol File Name Kind : Type} (E : Evidence Symbol File Name Kind) (req : ImpactRequest Symbol File) (capped₀ : Bool) (k : Nat)
  (s : Run Symbol File Name Kind Bool) (frontier : List Symbol) (files : List File)
  (P : File → Nat → Reason Name Kind → Prop)

/-- After `k` levels: `P` holds of dependents only, and the frontier is `k` steps from the target. -/
structure LevelInv [DecidableEq File] : Prop where
  table : TableIs s.found P
  sound : ∀ f d x, P f d x → ∃ j < k, d = j + 1 ∧ Dependent E req req.fileForm f j x
  reached : ∀ n, InFrontier frontier files n → AtStep E req req.fileForm k n
  context : s.cache = true → capped₀ = true ∨
    ∃ j < k, ∃ x, AtStep E req req.fileForm j (.symbol x) ∧ E.contextCapped x = true

/-- What the walk has found once it has gone through a node that `j` steps lead to. -/
structure Done (j : Nat) (n : Node Symbol File) : Prop where
  edges : ∀ x r, Edge E req n x r → ∃ i ≤ j, P r.fromFile (i + 1) x
  context : ∀ x, n = .symbol x → E.contextCapped x = true → s.cache = true

/-- After `k` levels without a budget and uncut: the walk has gone through all that fewer steps lead to. -/
structure Covers : Prop where
  start : ∀ n, InFrontier req.target.seeds req.target.files n → Visited s n ∨ InFrontier frontier files n
  closed : k < depth32 req → ∀ n m, Visited s n → Step E req req.fileForm n m →
    Visited s m ∨ InFrontier frontier files m
  visited : ∀ n, Visited s n → ∃ j < k, Done E req s P j n
  reach : ∀ j < k, ∀ n, AtStep E req req.fileForm j n → Visited s n ∧ Done E req s P j n
  context : capped₀ = true → s.cache = true

variable {E req capped₀ k s frontier files P} {maxFrontier : Nat}

theorem Done.mono {i j : Nat} {n : Node Symbol File} (h : Done E req s P i n) (hij : i ≤ j) : Done E req s P j n where
  edges := fun x r hr =>
    have ⟨m, hm, hP⟩ := h.edges x r hr
    ⟨m, hm.trans hij, hP⟩
  context := h.context

/-- The frontier of the walk is all of what `k` steps lead to that is new. -/
theorem Covers.next (h : Covers E req capped₀ k s frontier files P) (hk : k < depth32 req) {n : Node Symbol File}
    (hn : AtStep E req req.fileForm k n) : Visited s n ∨ InFrontier frontier files n := by
  cases k with
  | zero => exact h.start n hn
  | succ j =>
    obtain ⟨m, hm, hstep⟩ := hn
    exact h.closed hk m n (h.reach j (Nat.lt_succ_self j) m hm).1 hstep

/-- With nothing left to go through, the walk has found all it would find. -/
theorem Covers.exhausted (h : Covers E req capped₀ k s [] [] P) (hk : k < depth32 req) :
    ∀ j n, AtStep E req req.fileForm j n → Done E req s P j n := by
  have hempty : ∀ n : Node Symbol File, ¬InFrontier [] [] n := fun n hn => by cases n <;> cases hn
  have hvisited : ∀ j n, AtStep E req req.fileForm j n → Visited s n := by
    intro j
    induction j with
    | zero => exact fun n hn => (h.start n hn).resolve_right (hempty n)
    | succ j ih =>
      rintro n ⟨m, hm, hstep⟩
      exact (h.closed hk m n (ih m hm) hstep).resolve_right (hempty n)
  intro j n hn
  by_cases hj : j < k
  · exact (h.reach j hj n hn).2
  · obtain ⟨i, hi, hdone⟩ := h.visited n (hvisited j n hn)
    exact hdone.mono (hi.le.trans (Nat.le_of_not_lt hj))

end Invariants

section Steps

variable {Symbol File Name Kind : Type} [LinearOrder File] {E : Evidence Symbol File Name Kind}
  {req : ImpactRequest Symbol File} {capped₀ : Bool} {k : Nat} {s s' : Run Symbol File Name Kind Bool} {frontier : List Symbol} {files : List File}
  {P : File → Nat → Reason Name Kind → Prop} {maxFrontier : Nat}
  {e : Run Symbol File Name Kind Bool × Option (List Symbol × List File)}

/-- One level keeps to the dependents. -/
theorem LevelInv.step (h : LevelInv E req capped₀ k s frontier files P) {A : Edges Symbol File Name Kind}
    (hA : LevelEdges E req (k + 1) s s' A) (hsub : ∀ n x r, A n x r → InFrontier frontier files n ∧ Edge E req n x r)
    (hcontext : s'.cache = true → s.cache = true ∨ ∃ x ∈ frontier, E.contextCapped x = true) (he : Ended E s' e) :
    LevelInv E req capped₀ (k + 1) e.1 (e.2.getD ([], [])).1 (e.2.getD ([], [])).2
      fun f d x => P f d x ∨ d = k + 1 ∧ ∃ n r, A n x r ∧ r.fromFile = f := by
  obtain ⟨budget, capped, hframe, -⟩ := he.frame
  constructor
  · rw [hframe]
    exact hA.found P h.table
  · rintro f d x (hP | ⟨rfl, n, r, hn, rfl⟩)
    · obtain ⟨j, hj, hdep⟩ := h.sound f d x hP
      exact ⟨j, hj.trans (Nat.lt_succ_self k), hdep⟩
    · obtain ⟨hfrontier, hedge⟩ := hsub n x r hn
      exact ⟨k, Nat.lt_succ_self k, rfl, n, r, h.reached n hfrontier, hedge, rfl⟩
  · intro m hm
    cases m with
    | symbol y =>
      obtain ⟨r, hr, howner⟩ := he.symbols y hm
      obtain ⟨-, n, x, hn⟩ := (hA.callers r).mp hr
      obtain ⟨hfrontier, hedge⟩ := hsub n x r hn
      exact ⟨n, h.reached n hfrontier, x, r, hedge, howner⟩
    | file f =>
      obtain ⟨-, n, x, r, hn, hleads⟩ := (hA.files f).mp (he.files f hm)
      obtain ⟨hfrontier, hedge⟩ := hsub n x r hn
      exact ⟨n, h.reached n hfrontier, x, r, hedge, hleads⟩
  · rw [hframe]
    intro hcache
    rcases hcontext hcache with hcache | ⟨x, hx, hcap⟩
    · rcases h.context hcache with hcapped | ⟨j, hj, x, hx, hcap⟩
      · exact .inl hcapped
      · exact .inr ⟨j, hj.trans (Nat.lt_succ_self k), x, hx, hcap⟩
    · exact .inr ⟨k, Nat.lt_succ_self k, x, h.reached (.symbol x) hx, hcap⟩

theorem LevelInv.finish {k' : Nat} (h : LevelInv E req capped₀ k s frontier files P) (hk : k ≤ k') :
    LevelInv E req capped₀ k' s [] [] P where
  table := h.table
  sound := fun f d x hP => (h.sound f d x hP).imp fun j hj => ⟨hj.1.trans_le hk, hj.2⟩
  reached := fun n hn => by cases n <;> cases hn
  context := fun hcache => (h.context hcache).imp_right fun ⟨j, hj, x, hx⟩ => ⟨j, hj.trans_le hk, x, hx⟩

variable [DecidableEq Symbol]

/-- One level without a budget and uncut goes through its whole frontier. -/
theorem Covers.step (h : Covers E req capped₀ k s frontier files P) (hk : k < depth32 req)
    (hfree : LevelFree E req (k + 1) s frontier files s') (he : Ended E s' e)
    (hnext : e.2.getD ([], []) = (nextFrontier E.lookup s'.pendingCallers, nextFileFrontier s')) :
    Covers E req capped₀ (k + 1) e.1 (e.2.getD ([], [])).1 (e.2.getD ([], [])).2
      fun f d x => P f d x ∨ d = k + 1 ∧ ∃ n r,
        ((InFrontier frontier files n ∧ ¬Visited s n) ∧ Edge E req n x r) ∧ r.fromFile = f := by
  obtain ⟨budget, capped, hframe, -⟩ := he.frame
  have hvisited : ∀ n, Visited e.1 n ↔ Visited s n ∨ InFrontier frontier files n := fun n => by
    rw [hframe, ← hfree.visited]
    cases n <;> exact Iff.rfl
  have hcache : e.1.cache = true ↔
      s.cache = true ∨ ∃ x, (x ∈ frontier ∧ x ∉ s.visitedSymbols) ∧ E.contextCapped x = true := by
    rw [hframe]
    exact hfree.context
  rw [hnext]
  have hold : ∀ j n, Done E req s P j n → Done E req e.1
      (fun f d x => P f d x ∨ d = k + 1 ∧ ∃ n r,
        ((InFrontier frontier files n ∧ ¬Visited s n) ∧ Edge E req n x r) ∧ r.fromFile = f) j n := fun j n hdone =>
    ⟨fun x r hr => (hdone.edges x r hr).imp fun i hi => ⟨hi.1, .inl hi.2⟩,
      fun x hn hcap => hcache.mpr (.inl (hdone.context x hn hcap))⟩
  have hnew : ∀ n, InFrontier frontier files n → ¬Visited s n → Done E req e.1
      (fun f d x => P f d x ∨ d = k + 1 ∧ ∃ n r,
        ((InFrontier frontier files n ∧ ¬Visited s n) ∧ Edge E req n x r) ∧ r.fromFile = f) k n := fun n hn hnot =>
    ⟨fun x r hr => ⟨k, Nat.le_refl k, .inr ⟨rfl, n, r, ⟨⟨hn, hnot⟩, hr⟩, rfl⟩⟩,
      fun x heq hcap => by
        subst heq
        exact hcache.mpr (.inr ⟨x, ⟨hn, hnot⟩, hcap⟩)⟩
  have hdone : ∀ n, Visited e.1 n → Visited s n ∨ InFrontier frontier files n ∧ ¬Visited s n := fun n hn => by
    by_cases hs : Visited s n
    · exact .inl hs
    · exact .inr ⟨((hvisited n).mp hn).resolve_left hs, hs⟩
  constructor
  · exact fun n hn => .inl ((hvisited n).mpr (h.start n hn))
  · intro hk' n m hn hstep
    rcases hdone n hn with hn | ⟨hn, hnot⟩
    · exact .inl ((hvisited m).mpr (h.closed hk n m hn hstep))
    · obtain ⟨x, r, hedge, hleads⟩ := hstep
      cases m with
      | symbol y =>
        have hr : r ∈ s'.pendingCallers := (hfree.edges.callers r).mpr ⟨hk', n, x, ⟨hn, hnot⟩, hedge⟩
        exact .inr (mem_nextFrontier.mpr ⟨r, hr, hleads⟩)
      | file f =>
        have hf : f ∈ s'.nextFiles := (hfree.edges.files f).mpr ⟨hk', n, x, r, ⟨⟨hn, hnot⟩, hedge⟩, hleads⟩
        by_cases hseen : f ∈ s'.visitedFiles
        · exact .inl ((hvisited (.file f)).mpr ((hfree.visited (.file f)).mp hseen))
        · exact .inr (mem_nextFileFrontier.mpr ⟨hf, hseen⟩)
  · intro n hn
    rcases hdone n hn with hn | ⟨hn, hnot⟩
    · obtain ⟨j, hj, hd⟩ := h.visited n hn
      exact ⟨j, hj.trans (Nat.lt_succ_self k), hold j n hd⟩
    · exact ⟨k, Nat.lt_succ_self k, hnew n hn hnot⟩
  · intro j hj n hn
    rcases Nat.lt_succ_iff_lt_or_eq.mp hj with hj | rfl
    · obtain ⟨hv, hd⟩ := h.reach j hj n hn
      exact ⟨(hvisited n).mpr (.inl hv), hold j n hd⟩
    · have hv := h.next hk hn
      refine ⟨(hvisited n).mpr hv, ?_⟩
      by_cases hs : Visited s n
      · obtain ⟨i, hi, hd⟩ := h.visited n hs
        exact (hold i n hd).mono hi.le
      · exact hnew n (hv.resolve_left hs) hs
  · exact fun hcapped => hcache.mpr (.inl (h.context hcapped))

variable [DecidableEq Name] [DecidableEq Kind]

theorem walkLevel_done : ∃ s', walkLevel E.lookup req maxFrontier (k + 1) s frontier files =
    some (endLevel E.lookup maxFrontier s') ∧ LevelDone E req (k + 1) s frontier files s' := by
  obtain ⟨s', hs', hdone⟩ : ∃ s', _ ∧ LevelDone E req (k + 1) s frontier files s' := level_done
  have hlevel : walkLevel E.lookup req maxFrontier (k + 1) s frontier files =
      (followFiles E.lookup req (k + 1) files (followLevel E.lookup req (k + 1)
        (loadLevel E.lookup s.cleared frontier).1 (loadLevel E.lookup s.cleared frontier).2)).map
        (endLevel E.lookup maxFrontier) := rfl
  exact ⟨s', by rw [hlevel, hs', Option.map_some], hdone⟩

end Steps

section Runs

variable {Symbol File Name Kind : Type} [DecidableEq Symbol] [LinearOrder File] [DecidableEq Name] [DecidableEq Kind]
  (E : Evidence Symbol File Name Kind) (req : ImpactRequest Symbol File) (capped₀ : Bool)

/-- The walk has gone through all that fewer steps than the depth lead to. -/
structure Finished (s : Run Symbol File Name Kind Bool) (P : File → Nat → Reason Name Kind → Prop) : Prop where
  done : ∀ j < depth32 req, ∀ n, AtStep E req req.fileForm j n → Done E req s P j n
  context : capped₀ = true → s.cache = true

variable {E req capped₀} {maxFrontier : Nat}

omit [DecidableEq Name] [DecidableEq Kind] in
/-- A level: its edges, whole when there is no budget and nothing is cut. -/
theorem LevelDone.next (maxFrontier : Nat) {k : Nat} {s s' : Run Symbol File Name Kind Bool} {frontier : List Symbol} {files : List File}
    {P : File → Nat → Reason Name Kind → Prop} (h : LevelInv E req capped₀ k s frontier files P)
    (hdone : LevelDone E req (k + 1) s frontier files s') (hk : k < depth32 req) :
    ∃ P', LevelInv E req capped₀ (k + 1) (endLevel E.lookup maxFrontier s').1
        ((endLevel E.lookup maxFrontier s').2.getD ([], [])).1 ((endLevel E.lookup maxFrontier s').2.getD ([], [])).2 P' ∧
      (s.budget = none → Covers E req capped₀ k s frontier files P →
        (endLevel E.lookup maxFrontier s').1.frontierCapped = false →
        (endLevel E.lookup maxFrontier s').1.budget = none ∧
        Covers E req capped₀ (k + 1) (endLevel E.lookup maxFrontier s').1
          ((endLevel E.lookup maxFrontier s').2.getD ([], [])).1
          ((endLevel E.lookup maxFrontier s').2.getD ([], [])).2 P') := by
  have hended : Ended E s' (endLevel E.lookup maxFrontier s') := endLevel_ended
  by_cases hnone : s.budget = none
  · have hfree := hdone.free hnone
    refine ⟨_, h.step hfree.edges (fun n x r hn => ⟨hn.1.1, hn.2⟩) hdone.context hended, fun _ hcovers huncut => ?_⟩
    obtain ⟨hbudget, hnext⟩ := endLevel_free hfree.budget hfree.budgetSpent huncut
    exact ⟨hbudget, hcovers.step hk hfree hended hnext⟩
  · obtain ⟨A, hA, hsub⟩ := hdone.part
    exact ⟨_, h.step hA hsub hdone.context hended, fun h => absurd h hnone⟩

/-- The levels left, from a frontier that `k` steps lead to. -/
theorem walkLevels_run : ∀ {left k : Nat} {s : Run Symbol File Name Kind Bool} {frontier : List Symbol}
    {files : List File} {P : File → Nat → Reason Name Kind → Prop}, LevelInv E req capped₀ k s frontier files P →
    k + left = depth32 req → ∃ s' P', walkLevels E.lookup req maxFrontier left (k + 1) s frontier files = some s' ∧
      LevelInv E req capped₀ (depth32 req) s' [] [] P' ∧ (s.frontierCapped = true → s'.frontierCapped = true) ∧
      (s.budget = none → Covers E req capped₀ k s frontier files P → s'.frontierCapped = false →
        Finished E req capped₀ s' P') := by
  intro left
  induction left with
  | zero =>
    intro k s frontier files P h hk
    obtain rfl : k = depth32 req := hk
    exact ⟨s, P, rfl, h.finish (Nat.le_refl _), id, fun _ hcovers _ =>
      ⟨fun j hj n hn => (hcovers.reach j hj n hn).2, hcovers.context⟩⟩
  | succ left ih =>
    intro k s frontier files P h hk
    obtain ⟨s₁, hlevel, hdone⟩ : ∃ s', walkLevel E.lookup req maxFrontier (k + 1) s frontier files = _ ∧
        LevelDone E req (k + 1) s frontier files s' := walkLevel_done
    obtain ⟨P₁, hinv, hcovers⟩ := hdone.next maxFrontier h (by omega)
    have hkept : s.frontierCapped = true → (endLevel E.lookup maxFrontier s₁).1.frontierCapped = true := fun hcapped => by
      have hended : Ended E s₁ (endLevel E.lookup maxFrontier s₁) := endLevel_ended
      obtain ⟨budget, capped, hframe, hmono⟩ := hended.frame
      rw [hframe]
      exact hmono (hdone.frontierCapped.trans hcapped)
    rw [walkLevels, hlevel]
    generalize endLevel E.lookup maxFrontier s₁ = e at *
    obtain ⟨s₂, next⟩ := e
    cases next with
    | none =>
      refine ⟨s₂, P₁, rfl, hinv.finish (by omega), hkept, fun hnone hcov huncut => ?_⟩
      obtain ⟨-, hcov'⟩ := hcovers hnone hcov huncut
      refine ⟨fun j hj n hn => ?_, hcov'.context⟩
      by_cases hlast : k + 1 < depth32 req
      · exact hcov'.exhausted hlast j n hn
      · exact (hcov'.reach j (by omega) n hn).2
    | some next =>
      obtain ⟨s', P', hrun, hinv', hcapped, hfinished⟩ := ih hinv (by omega)
      refine ⟨s', P', hrun, hinv', fun h => hcapped (hkept h), fun hnone hcov huncut => ?_⟩
      have huncut₂ : s₂.frontierCapped = false := Bool.eq_false_iff.mpr fun h => by
        rw [hcapped h] at huncut
        cases huncut
      obtain ⟨hnone', hcov'⟩ := hcovers hnone hcov huncut₂
      exact hfinished hnone' hcov' huncut

end Runs

end Impact
end Graph
end CodeSage
