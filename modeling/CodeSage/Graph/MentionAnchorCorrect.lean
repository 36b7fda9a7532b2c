import CodeSage.Graph.MentionAnchor
import Mathlib.Data.List.Dedup
import Mathlib.Data.List.Perm.Subperm
import Mathlib.Tactic.NormNum

/-!
# CodeSage.Graph.MentionAnchorCorrect

The lift is bounded and stable. The ledger keeps the caps over all mentions; the targets fall with the slot, so
lifted rows stay in order; and no target exceeds the score at the head of the list.
-/

namespace CodeSage
namespace Graph
namespace MentionAnchor

open Lib

section Ledger

/-- What the ledger keeps over the mentions read. -/
structure Kept (window : List SearchResult) (mentions : List QueryMention) (ledger : AnchorLedger) : Prop where
  nodup : ledger.anchored.Nodup
  matched : ∀ i ∈ ledger.anchored, ∃ r, window[i]? = some r ∧ ∃ m ∈ mentions, matchesMention r m = true
  total : ledger.anchored.length ≤ MENTION_MAX_ANCHORED
  counts : ∀ file, (ledger.perFile.lookup file).getD 0 =
    ledger.anchored.countP fun i => decide ((window[i]?).map (·.filePath) = some file)
  chunks : ∀ file, (ledger.perFile.lookup file).getD 0 ≤ MENTION_MAX_CHUNKS_PER_FILE
  files : ledger.perFile.keys.length ≤ MENTION_MAX_FILES

variable {window : List SearchResult} {mentions : List QueryMention} {ledger : AnchorLedger}

theorem keys_insert_length {α : Type} [DecidableEq α] (perFile : AList fun _ : α => Nat) (file : α) (n : Nat) :
    (perFile.insert file n).keys.length =
      if file ∈ perFile then perFile.keys.length else perFile.keys.length + 1 := by
  rw [AList.keys_insert, List.length_cons, List.length_erase]
  by_cases hmem : file ∈ perFile
  · have hpos := List.length_pos_of_mem (AList.mem_keys.mp hmem)
    rw [if_pos (AList.mem_keys.mp hmem), if_pos hmem]
    omega
  · rw [if_neg (fun h => hmem (AList.mem_keys.mpr h)), if_neg hmem]

theorem Kept.tryAnchor (h : Kept window mentions ledger) {i : Nat} {r : SearchResult} (hr : window[i]? = some r)
    {m : QueryMention} (hm : m ∈ mentions) (hmatch : matchesMention r m = true) :
    Kept window mentions (ledger.tryAnchor i r.filePath) := by
  rw [AnchorLedger.tryAnchor]
  split
  · exact h
  · rename_i hroom
    simp only [Bool.or_eq_true, decide_eq_true_eq, List.contains_iff_mem, not_or, Nat.not_le] at hroom
    obtain ⟨hroom, hnew⟩ := hroom
    simp only
    split
    · exact h
    · rename_i hfile
      split
      · exact h
      · rename_i hcount
        refine ⟨?_, ?_, ?_, ?_, ?_, ?_⟩
        · exact List.nodup_append.mpr ⟨h.nodup, List.nodup_singleton i, fun a ha b hb hab => by
            rw [List.mem_singleton.mp hb] at hab
            exact hnew (hab ▸ ha)⟩
        · intro j hj
          rcases List.mem_append.mp hj with hj | hj
          · exact h.matched j hj
          · rw [List.mem_singleton.mp hj]
            exact ⟨r, hr, m, hm, hmatch⟩
        · rw [List.length_append, List.length_singleton]
          omega
        · intro file
          rw [List.countP_append, List.countP_singleton, hr, Option.map_some]
          by_cases hsame : file = r.filePath
          · rw [hsame, AList.lookup_insert, Option.getD_some, h.counts]
            simp
          · rw [AList.lookup_insert_ne hsame, h.counts, if_neg (by simpa using Ne.symm hsame), Nat.add_zero]
        · intro file
          by_cases hsame : file = r.filePath
          · rw [hsame, AList.lookup_insert, Option.getD_some]
            omega
          · rw [AList.lookup_insert_ne hsame]
            exact h.chunks file
        · rw [keys_insert_length]
          split
          · exact h.files
          · rename_i hmem
            rw [AList.lookup_eq_none.mpr hmem] at hfile
            simp at hfile
            omega

theorem Kept.foldl (h : Kept window mentions ledger) {m : QueryMention} (hm : m ∈ mentions)
    (step : AnchorLedger → SearchResult × Nat → AnchorLedger) (hits : List (SearchResult × Nat))
    (hits_at : ∀ p ∈ hits, window[p.2]? = some p.1)
    (hstep : ∀ l, ∀ p ∈ hits, step l p = l ∨ (matchesMention p.1 m = true ∧ step l p = l.tryAnchor p.2 p.1.filePath)) :
    Kept window mentions (hits.foldl step ledger) := by
  induction hits generalizing ledger with
  | nil => exact h
  | cons p hits ih =>
    refine ih ?_ (fun q hq => hits_at q (List.mem_cons_of_mem _ hq)) fun l q hq => hstep l q (List.mem_cons_of_mem _ hq)
    rcases hstep ledger p List.mem_cons_self with heq | ⟨hmatch, heq⟩
    · rw [heq]
      exact h
    · rw [heq]
      exact h.tryAnchor (hits_at p List.mem_cons_self) hm hmatch

theorem Kept.anchorMention (h : Kept window mentions ledger) {m : QueryMention} (hm : m ∈ mentions) :
    Kept window mentions (anchorMention window ledger m) := by
  have hat : ∀ p ∈ window.zipIdx, window[p.2]? = some p.1 := fun p hp => List.mem_zipIdx_iff_getElem?.mp hp
  cases m with
  | path path =>
    rw [MentionAnchor.anchorMention]
    split
    · exact h
    · split
      · exact h
      · refine h.foldl hm _ _ (fun p hp => hat p (List.mem_of_mem_filter hp)) fun l p hp => Or.inr ⟨?_, rfl⟩
        exact (List.mem_filter.mp hp).2
  | symbol owner member stemFallback =>
    rw [MentionAnchor.anchorMention]
    refine h.foldl hm _ _ hat fun l p _ => ?_
    by_cases hfull : MENTION_MAX_ANCHORED ≤ l.anchored.length
    · exact Or.inl (if_pos hfull)
    · by_cases hmatch : matchesMention p.1 (.symbol owner member stemFallback) = true
      · exact Or.inr ⟨hmatch, by rw [if_neg hfull, if_pos hmatch]⟩
      · exact Or.inl (by rw [if_neg hfull, if_neg hmatch])

theorem Kept.empty : Kept window mentions ⟨[], ∅⟩ := by
  refine ⟨List.nodup_nil, ?_, Nat.zero_le _, ?_, ?_, Nat.zero_le _⟩
  · intro i hi
    cases hi
  · intro file
    rfl
  · intro file
    exact Nat.zero_le _

theorem anchorAll_kept (window : List SearchResult) (mentions : List QueryMention) :
    Kept window mentions (anchorAll window mentions) := by
  have hfold : ∀ (ms : List QueryMention) (ledger : AnchorLedger), (∀ m ∈ ms, m ∈ mentions) →
      Kept window mentions ledger → Kept window mentions (ms.foldl (MentionAnchor.anchorMention window) ledger) := by
    intro ms
    induction ms with
    | nil => exact fun _ _ h => h
    | cons m ms ih =>
      intro ledger hms h
      exact ih _ (fun x hx => hms x (List.mem_cons_of_mem _ hx)) (h.anchorMention (hms m List.mem_cons_self))
  exact hfold mentions _ (fun _ hm => hm) Kept.empty

/-- The files of the anchored rows. -/
theorem Kept.mem_files (h : Kept window mentions ledger) {i : Nat} (hi : i ∈ ledger.anchored) {r : SearchResult}
    (hr : window[i]? = some r) : r.filePath ∈ ledger.perFile.keys := by
  have hcount : 0 < (ledger.perFile.lookup r.filePath).getD 0 := by
    rw [h.counts, List.countP_pos_iff]
    exact ⟨i, hi, by simp [hr]⟩
  rw [← AList.mem_keys]
  by_contra hmem
  rw [AList.lookup_eq_none.mpr hmem] at hcount
  simp at hcount

end Ledger

section Lift

variable {host : Host} {top : ℚ}

/-- The least score of the row in a slot. -/
def target (top : ℚ) (slot : Nat) : ℚ := top * (1 - MENTION_TOP_GAP_FRAC) ^ (slot + 1)

theorem target_anti (htop : 0 ≤ top) {s t : Nat} (hst : s ≤ t) : target top t ≤ target top s := by
  refine mul_le_mul_of_nonneg_left ?_ htop
  exact pow_le_pow_of_le_one (by norm_num [MENTION_TOP_GAP_FRAC]) (by norm_num [MENTION_TOP_GAP_FRAC]) (by omega)

theorem target_le_top (htop : 0 ≤ top) (s : Nat) : target top s ≤ top := by
  refine mul_le_of_le_one_right htop ?_
  exact pow_le_one₀ (by norm_num [MENTION_TOP_GAP_FRAC]) (by norm_num [MENTION_TOP_GAP_FRAC])

@[simp] theorem lift_score (host : Host) (slot : Nat) (r : SearchResult) :
    (lift host top slot r).score = max r.score (target top slot) := by
  rw [lift, recordScore]
  by_cases h : r.score < target top slot
  · rw [max_eq_right h.le]
    simp only [target] at h
    simp [target, if_pos h]
  · rw [max_eq_left (not_lt.mp h)]
    simp only [target] at h
    simp [if_neg h]

/-- The same row with a score that is not lower, and perhaps a longer trace. -/
def Raised (r r' : SearchResult) : Prop := { r' with score := r.score, trace := r.trace } = r ∧ r.score ≤ r'.score

theorem lift_raised (slot : Nat) (r : SearchResult) : Raised r (lift host top slot r) := by
  refine ⟨?_, lift_score host slot r ▸ le_max_left _ _⟩
  rw [lift, recordScore]
  split <;> rfl

theorem getElem?_foldl_modify {α : Type} (f : Nat → α → α) (ps : List (Nat × Nat)) (rows : List α) {i : Nat}
    (hi : i ∉ ps.map Prod.fst) : (ps.foldl (fun rows p => rows.modify p.1 (f p.2)) rows)[i]? = rows[i]? := by
  induction ps generalizing rows with
  | nil => rfl
  | cons p ps ih =>
    rw [List.map_cons, List.mem_cons, not_or] at hi
    rw [List.foldl_cons, ih _ hi.2, List.getElem?_modify_ne _ _ (Ne.symm hi.1)]

theorem getElem?_foldl_modify_mem {α : Type} (f : Nat → α → α) (ps : List (Nat × Nat)) (rows : List α)
    (hnodup : (ps.map Prod.fst).Nodup) {p : Nat × Nat} (hp : p ∈ ps) :
    (ps.foldl (fun rows p => rows.modify p.1 (f p.2)) rows)[p.1]? = (rows[p.1]?).map (f p.2) := by
  induction ps generalizing rows with
  | nil => cases hp
  | cons q ps ih =>
    rw [List.map_cons, List.nodup_cons] at hnodup
    rw [List.foldl_cons]
    rcases List.mem_cons.mp hp with rfl | hp
    · rw [getElem?_foldl_modify f ps _ hnodup.1, List.getElem?_modify_eq, Option.map_eq_map]
    · have hne : q.1 ≠ p.1 := fun h => hnodup.1 (h ▸ List.mem_map_of_mem hp)
      rw [ih _ hnodup.2 hp, List.getElem?_modify_ne _ _ hne]

theorem foldl_modify_length {α : Type} (f : Nat → α → α) (ps : List (Nat × Nat)) (rows : List α) :
    (ps.foldl (fun rows p => rows.modify p.1 (f p.2)) rows).length = rows.length := by
  induction ps generalizing rows with
  | nil => rfl
  | cons p ps ih => rw [List.foldl_cons, ih, List.length_modify]

variable {anchored : List Nat} {rows : List SearchResult}

theorem liftAll_length (host : Host) (top : ℚ) (anchored : List Nat) (rows : List SearchResult) :
    (liftAll host top anchored rows).length = rows.length := foldl_modify_length _ _ _

theorem liftAll_of_not_mem (host : Host) (top : ℚ) (rows : List SearchResult) {i : Nat} (hi : i ∉ anchored) : (liftAll host top anchored rows)[i]? = rows[i]? :=
  getElem?_foldl_modify _ _ _ (by rwa [List.zipIdx_map_fst])

theorem liftAll_of_slot (host : Host) (top : ℚ) (rows : List SearchResult) (hnodup : anchored.Nodup) {i s : Nat} (hs : anchored[s]? = some i) :
    (liftAll host top anchored rows)[i]? = (rows[i]?).map (lift host top s) :=
  getElem?_foldl_modify_mem (lift host top) anchored.zipIdx rows (by rwa [List.zipIdx_map_fst])
    (List.mem_zipIdx_iff_getElem?.mpr hs : (i, s) ∈ anchored.zipIdx)

theorem liftAll_raised (host : Host) (top : ℚ) (hnodup : anchored.Nodup) {i : Nat} {r : SearchResult} (hr : rows[i]? = some r) :
    ∃ r', (liftAll host top anchored rows)[i]? = some r' ∧ Raised r r' ∧ (i ∉ anchored → r' = r) := by
  by_cases hi : i ∈ anchored
  · obtain ⟨s, hs, hsi⟩ := List.mem_iff_getElem.mp hi
    refine ⟨lift host top s r, ?_, lift_raised s r, fun h => absurd hi h⟩
    rw [liftAll_of_slot host top rows hnodup (by rw [List.getElem?_eq_getElem hs, hsi]), hr, Option.map_some]
  · exact ⟨r, by rw [liftAll_of_not_mem host top rows hi, hr], ⟨rfl, le_refl _⟩, fun _ => rfl⟩

/-- Rows that are both anchored, or both not, keep their order by score. -/
theorem liftAll_score_le (htop : 0 ≤ top) (hnodup : anchored.Nodup) (hsorted : anchored.Pairwise (· ≤ ·)) {i j : Nat}
    (hij : i < j) {r s r' s' : SearchResult} (hr : rows[i]? = some r) (hs : rows[j]? = some s)
    (hr' : (liftAll host top anchored rows)[i]? = some r') (hs' : (liftAll host top anchored rows)[j]? = some s')
    (hle : s.score ≤ r.score) (hboth : i ∈ anchored ↔ j ∈ anchored) : s'.score ≤ r'.score := by
  by_cases hi : i ∈ anchored
  · obtain ⟨a, ha, hai⟩ := List.mem_iff_getElem.mp hi
    obtain ⟨b, hb, hbj⟩ := List.mem_iff_getElem.mp (hboth.mp hi)
    have hab : a ≤ b := by
      by_contra hlt
      have := List.pairwise_iff_getElem.mp hsorted b a hb ha (by omega)
      omega
    rw [liftAll_of_slot host top rows hnodup (by rw [List.getElem?_eq_getElem ha, hai]), hr, Option.map_some, Option.some.injEq] at hr'
    rw [liftAll_of_slot host top rows hnodup (by rw [List.getElem?_eq_getElem hb, hbj]), hs, Option.map_some, Option.some.injEq] at hs'
    rw [← hr', ← hs', lift_score, lift_score]
    exact max_le_max hle (target_anti htop hab)
  · rw [liftAll_of_not_mem host top rows hi, hr, Option.some.injEq] at hr'
    rw [liftAll_of_not_mem host top rows (fun h => hi (hboth.mpr h)), hs, Option.some.injEq] at hs'
    rw [← hr', ← hs']
    exact hle

/-- No row is raised over the head. -/
theorem liftAll_le_head (htop : 0 ≤ top) (hnodup : anchored.Nodup) {r s r' s' : SearchResult} {j : Nat}
    (hhead : top ≤ r.score) (hr : rows[0]? = some r) (hs : rows[j]? = some s) (hle : s.score ≤ r.score)
    (hr' : (liftAll host top anchored rows)[0]? = some r') (hs' : (liftAll host top anchored rows)[j]? = some s') :
    s'.score ≤ r'.score := by
  obtain ⟨_, hr'', hup, -⟩ := liftAll_raised host top hnodup hr
  rw [hr', Option.some.injEq] at hr''
  rw [← hr''] at hup
  refine le_trans ?_ hup.2
  by_cases hj : j ∈ anchored
  · obtain ⟨b, hb, hbj⟩ := List.mem_iff_getElem.mp hj
    rw [liftAll_of_slot host top rows hnodup (by rw [List.getElem?_eq_getElem hb, hbj]), hs, Option.map_some, Option.some.injEq] at hs'
    rw [← hs', lift_score]
    exact max_le hle ((target_le_top htop b).trans hhead)
  · rw [liftAll_of_not_mem host top rows hj, hs, Option.some.injEq] at hs'
    exact hs' ▸ hle

end Lift

section Window

theorem le_foldl_max {s m : ℚ} (ss : List ℚ) (h : s ≤ m) (hss : ∀ x ∈ ss, x ≤ m) : s ≤ ss.foldl max s ∧ ss.foldl max s ≤ m := by
  induction ss generalizing s with
  | nil => exact ⟨le_refl _, h⟩
  | cons x ss ih =>
    have hx := hss x List.mem_cons_self
    obtain ⟨hlow, hhigh⟩ := ih (max_le h hx) fun y hy => hss y (List.mem_cons_of_mem _ hy)
    exact ⟨(le_max_left _ _).trans hlow, hhigh⟩

/-- The maximum of a window is between zero and any bound on its scores. -/
theorem topScore_bounds {window : List SearchResult} {m : ℚ} (hm : 0 ≤ m) (hscores : ∀ r ∈ window, 0 ≤ r.score)
    (h : ∀ r ∈ window, r.score ≤ m) : 0 ≤ topScore window ∧ topScore window ≤ m := by
  cases window with
  | nil => exact ⟨le_refl _, hm⟩
  | cons r window =>
    obtain ⟨hlow, hhigh⟩ := le_foldl_max (window.map (·.score)) (h r List.mem_cons_self) fun x hx => by
      obtain ⟨y, hy, rfl⟩ := List.mem_map.mp hx
      exact h y (List.mem_cons_of_mem _ hy)
    exact ⟨(hscores r List.mem_cons_self).trans hlow, hhigh⟩

/-- Over sorted rows the head has the maximum of the window. -/
theorem topScore_take_bounds {rows : List SearchResult} (hsorted : rows.Pairwise fun a b => b.score ≤ a.score)
    (hscores : ∀ r ∈ rows, 0 ≤ r.score) {r : SearchResult} (hr : rows[0]? = some r) (scanLimit : Nat) :
    0 ≤ topScore (rows.take scanLimit) ∧ topScore (rows.take scanLimit) ≤ r.score := by
  refine topScore_bounds (hscores r (List.mem_of_getElem? hr)) (fun s hs => hscores s (List.mem_of_mem_take hs)) ?_
  intro s hs
  cases rows with
  | nil => cases hr
  | cons x rows =>
    cases hr
    rcases List.mem_cons.mp (List.mem_of_mem_take hs) with rfl | hs
    · exact le_refl _
    · exact (List.pairwise_cons.mp hsorted).1 s hs

variable (host : Host) (results : List SearchResult) (query : Text) (scanLimit : Nat) (enabled : Bool)

theorem scoreLe_trans (a b c : SearchResult) (hab : scoreLe a b = true) (hbc : scoreLe b c = true) :
    scoreLe a c = true := by
  simp only [scoreLe, decide_eq_true_eq] at *
  exact hbc.trans hab

theorem scoreLe_total (a b : SearchResult) : (scoreLe a b || scoreLe b a) = true := by
  simp only [scoreLe, Bool.or_eq_true, decide_eq_true_eq]
  exact le_total _ _

/-- A row that is not raised has its score. -/
theorem liftAll_sorted_of_not_lifted {host : Host} {top : ℚ} {anchored : List Nat} {rows : List SearchResult}
    (hnodup : anchored.Nodup) (hsorted : rows.Pairwise fun a b => b.score ≤ a.score)
    (h : lifted top anchored rows = false) :
    (liftAll host top anchored rows).Pairwise fun a b => scoreLe a b = true := by
  have hscore : ∀ (i : Nat) (hi : i < rows.length) (hi' : i < (liftAll host top anchored rows).length),
      (liftAll host top anchored rows)[i].score = rows[i].score := by
    intro i hi hi'
    by_cases hmem : i ∈ anchored
    · obtain ⟨s, hs, hsi⟩ := List.mem_iff_getElem.mp hmem
      have hslot : anchored[s]? = some i := by rw [List.getElem?_eq_getElem hs, hsi]
      have hrow := liftAll_of_slot host top rows hnodup hslot
      rw [List.getElem?_eq_getElem hi', List.getElem?_eq_getElem hi, Option.map_some, Option.some.injEq] at hrow
      rw [hrow, lift_score]
      refine max_eq_left ?_
      have hnot := List.any_eq_false.mp h (i, s) (List.mem_zipIdx_iff_getElem?.mpr hslot)
      rw [List.getElem?_eq_getElem hi] at hnot
      simpa [target] using hnot
    · have hrow := liftAll_of_not_mem host top rows hmem
      rw [List.getElem?_eq_getElem hi', List.getElem?_eq_getElem hi, Option.some.injEq] at hrow
      rw [hrow]
  rw [List.pairwise_iff_getElem]
  intro i j hi hj hij
  have hlen := liftAll_length host top anchored rows
  rw [scoreLe, decide_eq_true_eq, hscore i (hlen ▸ hi), hscore j (hlen ▸ hj)]
  exact List.pairwise_iff_getElem.mp hsorted i j (hlen ▸ hi) (hlen ▸ hj) hij

/-- The rows the query names are those of a ledger over the window. -/
theorem anchoredRows_kept : ∃ ledger, Kept (results.take scanLimit) (extractQueryMentions host query) ledger ∧
    anchoredRows host results query scanLimit 0 enabled = ledger.anchored := by
  rw [anchoredRows]
  split
  · exact ⟨⟨[], ∅⟩, Kept.empty, rfl⟩
  · exact ⟨_, anchorAll_kept _ _, rfl⟩

theorem anchorAll_nil (window : List SearchResult) : (anchorAll window []).anchored = [] := rfl

theorem anchorAll_no_rows (mentions : List QueryMention) : (anchorAll [] mentions).anchored = [] := by
  rw [List.eq_nil_iff_forall_not_mem]
  intro i hi
  obtain ⟨r, hr, -⟩ := (anchorAll_kept [] mentions).matched i hi
  cases hr

theorem liftAll_nil (host : Host) (top : ℚ) (rows : List SearchResult) : liftAll host top [] rows = rows := rfl

/-- Every path of the function ends in the sorted rows of the lift. -/
theorem applyMentionAnchor_eq (hsorted : results.Pairwise fun a b => b.score ≤ a.score) :
    applyMentionAnchor host results query scanLimit 0 enabled =
      (liftAll host (topScore (results.take scanLimit))
        ((anchoredRows host results query scanLimit 0 enabled).mergeSort (· ≤ ·)) results).mergeSort scoreLe := by
  have hsame : results.mergeSort scoreLe = results :=
    List.mergeSort_of_pairwise (hsorted.imp fun h => decide_eq_true h)
  have hnone : anchoredRows host results query scanLimit 0 enabled = [] →
      (liftAll host (topScore (results.take scanLimit))
        ((anchoredRows host results query scanLimit 0 enabled).mergeSort (· ≤ ·)) results).mergeSort scoreLe
          = results := by
    intro h
    rw [h, List.mergeSort_nil, liftAll_nil, hsame]
  rw [applyMentionAnchor]
  split
  · rename_i hoff
    exact (hnone (if_pos hoff)).symm
  · rename_i hon
    have hrows : anchoredRows host results query scanLimit 0 enabled =
        (anchorAll (results.take scanLimit) (extractQueryMentions host query)).anchored := if_neg hon
    simp only
    split
    · rename_i hmentions
      rw [hnone (by rw [hrows, List.isEmpty_iff.mp hmentions, anchorAll_nil])]
    · split
      · rename_i hwindow
        rw [hnone (by rw [hrows, List.isEmpty_iff.mp hwindow, anchorAll_no_rows])]
      · split
        · rename_i hanchored
          rw [hnone (by rw [hrows, List.isEmpty_iff.mp hanchored])]
        · rw [hrows]
          split
          · rfl
          · rename_i hlifted
            refine (List.mergeSort_of_pairwise ?_).symm
            refine liftAll_sorted_of_not_lifted ?_ hsorted (by simpa using hlifted)
            exact (List.mergeSort_perm _ _).nodup_iff.mpr (anchorAll_kept _ _).nodup

end Window

/-- What a bounded stable lift of `rows` to `out` is, when `anchored` are the rows the query names and `order` the
places the rows of `out` come from. -/
structure BoundedLift (host : Host) (query : Text) (scanLimit : Nat) (rows out : List SearchResult)
    (anchored order : List Nat) : Prop where
  perm : order.Perm (List.range rows.length)
  length : out.length = rows.length
  row : ∀ k i : Nat, order[k]? = some i → ∃ r r', rows[i]? = some r ∧ out[k]? = some r' ∧ Raised r r' ∧
    (r.score < r'.score → i ∈ anchored)
  total : anchored.Nodup ∧ anchored.length ≤ 5
  files : ((anchored.filterMap (rows[·]?)).map (·.filePath)).dedup.length ≤ 4
  chunks : ∀ file, (anchored.countP fun i => decide ((rows[i]?).map (·.filePath) = some file)) ≤ 3
  window : ∀ i ∈ anchored, i < scanLimit ∧
    ∃ r, rows[i]? = some r ∧ ∃ m ∈ extractQueryMentions host query, matchesMention r m = true
  head : rows ≠ [] → order.head? = some 0
  stable : ∀ i j : Nat, i < j → j < rows.length → (i ∈ anchored ↔ j ∈ anchored) → [i, j].Sublist order

/-- Over rows sorted by score the lift is bounded and stable. -/
theorem applyMentionAnchor_boundedLift (host : Host) (rows : List SearchResult) (query : Text) (scanLimit : Nat)
    (enabled : Bool) (hsorted : rows.Pairwise fun a b => b.score ≤ a.score) (hscores : ∀ r ∈ rows, 0 ≤ r.score) :
    ∃ order, BoundedLift host query scanLimit rows (applyMentionAnchor host rows query scanLimit 0 enabled)
      (anchoredRows host rows query scanLimit 0 enabled) order := by
  have hkept := anchoredRows_kept host rows query scanLimit enabled
  have hrow : ∀ i ∈ anchoredRows host rows query scanLimit 0 enabled, i < scanLimit ∧
      ∃ r, rows[i]? = some r ∧ ∃ m ∈ extractQueryMentions host query, matchesMention r m = true := by
    intro i hi
    obtain ⟨ledger, hledger, heq⟩ := hkept
    obtain ⟨r, hr, hmatch⟩ := hledger.matched i (heq ▸ hi)
    rw [List.getElem?_take] at hr
    split at hr
    · rename_i hlt
      exact ⟨hlt, r, hr, hmatch⟩
    · cases hr
  rw [applyMentionAnchor_eq host rows query scanLimit enabled hsorted]
  generalize hanchored : anchoredRows host rows query scanLimit 0 enabled = anchored at hkept hrow ⊢
  obtain ⟨ledger, hledger, rfl⟩ := hkept
  have hat : ∀ i ∈ ledger.anchored, (rows.take scanLimit)[i]? = rows[i]? := fun i hi => by
    rw [List.getElem?_take, if_pos (hrow i hi).1]
  set slots := ledger.anchored.mergeSort (· ≤ ·)
  have hperm : slots.Perm ledger.anchored := List.mergeSort_perm _ _
  have hnodup : slots.Nodup := hperm.nodup_iff.mpr hledger.nodup
  have hslots : slots.Pairwise (· ≤ ·) := by
    have hpairwise : slots.Pairwise fun a b => decide (a ≤ b) = true :=
      List.pairwise_mergeSort (by simp; omega) (by simp; omega) ledger.anchored
    exact hpairwise.imp fun h => by simpa using h
  have htop : ∀ r, rows[0]? = some r → 0 ≤ topScore (rows.take scanLimit) ∧ topScore (rows.take scanLimit) ≤ r.score :=
    fun r hr => topScore_take_bounds hsorted hscores hr scanLimit
  generalize topScore (rows.take scanLimit) = top at htop
  have hlen := liftAll_length host top slots rows
  have hle : ∀ i j (hij : i ≤ j) (hj : j < rows.length), rows[j].score ≤ rows[i].score := fun i j hij hj => by
    rcases Nat.eq_or_lt_of_le hij with rfl | hlt
    · exact le_refl _
    · exact List.pairwise_iff_getElem.mp hsorted i j (by omega) hj hlt
  refine ⟨Ranking.order scoreLe (liftAll host top slots rows), ?_, ?_, ?_, ⟨hledger.nodup, hledger.total⟩, ?_, ?_, hrow,
    ?_, ?_⟩
  · rw [← hlen]
    exact Ranking.order_perm _ _
  · rw [List.length_mergeSort, hlen]
  · intro k i hk
    have hi : i < rows.length := by
      have := (Ranking.order_perm _ _).mem_iff.mp (List.mem_of_getElem? hk)
      rwa [hlen, List.mem_range] at this
    obtain ⟨r', hr', hup, hsame⟩ := liftAll_raised host top hnodup (List.getElem?_eq_getElem hi)
    refine ⟨rows[i], r', List.getElem?_eq_getElem hi, ?_, hup, fun hlt => ?_⟩
    · have hsort := congrArg (·[k]?) (Ranking.mergeSort_eq_order scoreLe (liftAll host top slots rows))
      simp only [List.getElem?_map, hk, Option.map_some, hr', Option.map_eq_some_iff, Option.some.injEq] at hsort
      obtain ⟨_, hrow', rfl⟩ := hsort
      exact hrow'
    · by_contra hi'
      rw [hsame fun h => hi' (hperm.mem_iff.mp h)] at hlt
      exact lt_irrefl _ hlt
  · refine le_trans (List.Subperm.length_le (List.Nodup.subperm (List.nodup_dedup _) fun file hfile => ?_)) hledger.files
    obtain ⟨r, hr, rfl⟩ := List.mem_map.mp (List.mem_dedup.mp hfile)
    obtain ⟨i, hi, hri⟩ := List.mem_filterMap.mp hr
    exact hledger.mem_files hi ((hat i hi).trans hri)
  · intro file
    have hcount := hledger.counts file
    rw [List.countP_congr fun i hi => by rw [hat i hi]] at hcount
    exact hcount ▸ hledger.chunks file
  · intro hne
    have hpos : 0 < rows.length := List.length_pos_iff.mpr hne
    refine Ranking.order_head scoreLe_trans scoreLe_total (hlen ▸ hpos) fun j hj => ?_
    have hfirst := htop rows[0] (List.getElem?_eq_getElem hpos)
    exact decide_eq_true (liftAll_le_head hfirst.1 hnodup hfirst.2 (List.getElem?_eq_getElem hpos)
      (List.getElem?_eq_getElem (hlen ▸ hj)) (hle 0 j (Nat.zero_le _) (hlen ▸ hj)) (List.getElem?_eq_getElem _)
      (List.getElem?_eq_getElem hj))
  · intro i j hij hj hboth
    have hfirst := htop rows[0] (List.getElem?_eq_getElem (by omega))
    refine Ranking.sublist_order scoreLe_trans scoreLe_total hij (by omega) (hlen ▸ hj) (decide_eq_true ?_)
    refine liftAll_score_le hfirst.1 hnodup hslots hij (List.getElem?_eq_getElem (hij.trans hj))
      (List.getElem?_eq_getElem hj) (List.getElem?_eq_getElem _) (List.getElem?_eq_getElem _)
      (hle i j hij.le hj) ?_
    rw [hperm.mem_iff, hperm.mem_iff]
    exact hboth

/-- The letters of plain text. -/
def plainHost : Host := ⟨Char.isAlpha, Char.isAlphanum, fun q => decimal q.num.natAbs⟩

def plainRow (filePath : String) (score : ℚ) : SearchResult := ⟨filePath.toList, [], 1, 9, score, [], none⟩

/-- The query names the second of three rows. -/
theorem applyMentionAnchor_boundedLift_for_a_path :
    ∃ order, BoundedLift plainHost "why does src/db.rs lock".toList 50
      [plainRow "src/main.rs" 1, plainRow "src/db.rs" (1 / 2), plainRow "src/io.rs" (1 / 4)]
      (applyMentionAnchor plainHost
        [plainRow "src/main.rs" 1, plainRow "src/db.rs" (1 / 2), plainRow "src/io.rs" (1 / 4)]
        "why does src/db.rs lock".toList 50 0 true)
      (anchoredRows plainHost
        [plainRow "src/main.rs" 1, plainRow "src/db.rs" (1 / 2), plainRow "src/io.rs" (1 / 4)]
        "why does src/db.rs lock".toList 50 0 true) order :=
  applyMentionAnchor_boundedLift _ _ _ _ _ (by decide +kernel) (by decide +kernel)

end MentionAnchor
end Graph
end CodeSage
