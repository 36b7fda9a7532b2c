import Mathlib.Algebra.Order.Ring.Int
import Mathlib.Data.List.Induction

/-!
# CodeSage.Lib.Brackets

Sequences of opening and closing brackets: how deep they go, which of them have no partner, and what is left without those.
-/

namespace Lib
namespace Brackets

inductive Side where
  | opening
  | closing
  deriving DecidableEq, Repr

/-- What a bracket adds to the depth. -/
def Side.delta : Side → Int
  | .opening => 1
  | .closing => -1

section Depths

def net : List Side → Int
  | [] => 0
  | side :: rest => side.delta + net rest

/-- The lowest depth of a prefix. -/
def low : List Side → Int
  | [] => 0
  | side :: rest => min 0 (side.delta + low rest)

/-- No bracket without a partner. -/
def Balanced (sides : List Side) : Prop := net sides = 0 ∧ low sides = 0

variable {a b : List Side} {side : Side}

theorem net_append (a b : List Side) : net (a ++ b) = net a + net b := by
  induction a with
  | nil => simp [net]
  | cons side a ih => simp only [List.cons_append, net, ih]; omega

theorem low_nonpos (a : List Side) : low a ≤ 0 := by
  cases a with
  | nil => simp [low]
  | cons side a => exact Int.min_le_left _ _

theorem low_le_net (a : List Side) : low a ≤ net a := by
  induction a with
  | nil => simp [low, net]
  | cons side a ih => simp only [low, net]; omega

theorem low_append (a b : List Side) : low (a ++ b) = min (low a) (net a + low b) := by
  induction a with
  | nil =>
    have := low_nonpos b
    simp only [List.nil_append, low, net]
    omega
  | cons side a ih => simp only [List.cons_append, low, net, ih]; omega

theorem net_concat (a : List Side) (side : Side) : net (a ++ [side]) = net a + side.delta := by
  rw [net_append]
  simp [net]

theorem low_concat (a : List Side) (side : Side) : low (a ++ [side]) = min (low a) (net a + side.delta) := by
  have := low_le_net a
  rw [low_append]
  simp only [low]
  omega

theorem Balanced.nil : Balanced [] := ⟨rfl, rfl⟩

theorem Balanced.append (ha : Balanced a) (hb : Balanced b) : Balanced (a ++ b) := by
  constructor
  · rw [net_append, ha.1, hb.1]
    rfl
  · rw [low_append, ha.1, ha.2, hb.2]
    rfl

theorem Balanced.wrap (h : Balanced a) : Balanced (.opening :: (a ++ [.closing])) := by
  constructor
  · simp [net, net_concat, h.1, Side.delta]
  · simp [low, low_concat, h.1, h.2, Side.delta]

end Depths

section Partners

variable {α : Type} {x : α} {os : List α} {w pre seg : List (Side × α)}

/-- The brackets without a partner, in order. -/
structure Unmatched (α : Type) where
  closers : List α := []
  openers : List α := []

/-- A closing bracket takes the last opener that is free. -/
def Unmatched.step (u : Unmatched α) (bracket : Side × α) : Unmatched α :=
  match bracket.1 with
  | .opening => { u with openers := u.openers ++ [bracket.2] }
  | .closing =>
    if u.openers.isEmpty then { u with closers := u.closers ++ [bracket.2] } else { u with openers := u.openers.dropLast }

def unmatched (brackets : List (Side × α)) : Unmatched α := brackets.foldl Unmatched.step {}

def sides (brackets : List (Side × α)) : List Side := brackets.map Prod.fst

@[simp] theorem unmatched_nil : unmatched ([] : List (Side × α)) = {} := rfl

theorem unmatched_concat (brackets : List (Side × α)) (bracket : Side × α) :
    unmatched (brackets ++ [bracket]) = (unmatched brackets).step bracket := by
  rw [unmatched, List.foldl_append]
  rfl

theorem sides_append (a b : List (Side × α)) : sides (a ++ b) = sides a ++ sides b := List.map_append

/-- How many brackets have no partner follows from the depth and the lowest depth. -/
theorem length_unmatched (brackets : List (Side × α)) :
    ((unmatched brackets).closers.length : Int) = -low (sides brackets) ∧
      ((unmatched brackets).openers.length : Int) = net (sides brackets) - low (sides brackets) := by
  induction brackets using List.reverseRecOn with
  | nil => exact ⟨rfl, rfl⟩
  | append_singleton brackets bracket ih =>
    obtain ⟨side, x⟩ := bracket
    have hle := low_le_net (sides brackets)
    rw [unmatched_concat, sides_append, show sides [(side, x)] = [side] from rfl, low_concat, net_concat]
    cases side with
    | opening =>
      simp only [Unmatched.step, List.length_append, List.length_singleton, Side.delta]
      omega
    | closing =>
      simp only [Unmatched.step]
      split
      · rename_i hempty
        rw [List.isEmpty_iff] at hempty
        simp only [hempty, List.length_nil] at ih
        simp only [hempty, List.length_append, List.length_singleton, List.length_nil, Side.delta]
        omega
      · rename_i hempty
        have hpos : 0 < (unmatched brackets).openers.length := by
          rw [List.length_pos_iff]
          exact fun h => hempty (by rw [h]; rfl)
        simp only [List.length_dropLast, Side.delta]
        omega

theorem mem_of_mem_unmatched {brackets : List (Side × α)} (h : x ∈ (unmatched brackets).closers ++ (unmatched brackets).openers) :
    x ∈ brackets.map Prod.snd := by
  induction brackets using List.reverseRecOn with
  | nil => cases h
  | append_singleton brackets bracket ih =>
    obtain ⟨side, y⟩ := bracket
    rw [List.map_append, List.map_singleton, List.mem_append, List.mem_singleton]
    rw [unmatched_concat, List.mem_append] at h
    rw [List.mem_append] at ih
    cases side with
    | opening =>
      simp only [Unmatched.step, List.mem_append, List.mem_singleton] at h
      tauto
    | closing =>
      simp only [Unmatched.step] at h
      split at h
      · simp only [List.mem_append, List.mem_singleton] at h
        tauto
      · exact Or.inl (ih (h.imp_right fun hmem => (List.dropLast_sublist _).mem hmem))

/-- Every bracket has its partner, but for the openers listed. -/
inductive OpenedBy : List (Side × α) → List α → Prop where
  | none {seg : List (Side × α)} (balanced : Balanced (sides seg)) : OpenedBy seg []
  | one {pre seg : List (Side × α)} {os : List α} {x : α} (rest : OpenedBy pre os) (balanced : Balanced (sides seg)) :
    OpenedBy (pre ++ (.opening, x) :: seg) (os ++ [x])

theorem OpenedBy.append (h : OpenedBy w os) (hseg : Balanced (sides seg)) : OpenedBy (w ++ seg) os := by
  cases h with
  | none balanced => exact .none (by rw [sides_append]; exact balanced.append hseg)
  | one rest balanced =>
    rw [List.append_assoc, List.cons_append]
    exact .one rest (by rw [sides_append]; exact balanced.append hseg)

/-- A closing bracket gives the last opener its partner. -/
theorem OpenedBy.close (h : OpenedBy w os) (hne : os ≠ []) (x : α) : OpenedBy (w ++ [(.closing, x)]) os.dropLast := by
  cases h with
  | none => exact absurd rfl hne
  | one rest balanced =>
    rw [List.dropLast_concat, List.append_assoc, List.cons_append]
    refine rest.append ?_
    simp only [sides, List.map_cons, List.map_append, List.map_nil]
    exact Balanced.wrap balanced

theorem OpenedBy.mem (h : OpenedBy w os) : ∀ x ∈ os, x ∈ w.map Prod.snd := by
  induction h with
  | none => simp
  | one rest balanced ih =>
    intro x hx
    rw [List.mem_append, List.mem_singleton] at hx
    simp only [List.map_append, List.map_cons, List.mem_append, List.mem_cons]
    rcases hx with hx | rfl
    · exact Or.inl (ih x hx)
    · exact Or.inr (Or.inl rfl)

variable [DecidableEq α]

/-- The brackets whose labels are in none of the lists. -/
def without (labels : List α) (brackets : List (Side × α)) : List (Side × α) := brackets.filter fun bracket => bracket.2 ∉ labels

theorem without_eq_self {labels : List α} (h : ∀ bracket ∈ w, bracket.2 ∉ labels) : without labels w = w :=
  List.filter_eq_self.mpr fun bracket hmem => by simpa using h bracket hmem

theorem without_congr {labels labels' : List α} (h : ∀ bracket ∈ w, bracket.2 ∈ labels ↔ bracket.2 ∈ labels') :
    without labels w = without labels' w :=
  List.filter_congr fun bracket hmem => by rw [decide_eq_decide, h bracket hmem]

theorem without_append (labels : List α) (a b : List (Side × α)) : without labels (a ++ b) = without labels a ++ without labels b :=
  List.filter_append ..

/-- What has partners but for its openers is balanced without them. -/
theorem OpenedBy.balanced (h : OpenedBy w os) (hnodup : (w.map Prod.snd).Nodup) : Balanced (sides (without os w)) := by
  induction h with
  | none balanced => rwa [without_eq_self (by simp)]
  | @one pre seg os x rest balanced ih =>
    rw [List.map_append, List.nodup_append] at hnodup
    obtain ⟨hpre, htail, hapart⟩ := hnodup
    rw [List.map_cons, List.nodup_cons] at htail
    have hkept : without (os ++ [x]) pre = without os pre := by
      refine List.filter_congr fun bracket hmem => ?_
      have hne : bracket.2 ≠ x := hapart _ (List.mem_map_of_mem hmem) x (List.mem_map_of_mem List.mem_cons_self)
      simp [hne]
    have hseg : without (os ++ [x]) ((.opening, x) :: seg) = seg := by
      rw [without, List.filter_cons_of_neg (by simp)]
      refine without_eq_self fun bracket hmem hin => ?_
      rw [List.mem_append, List.mem_singleton] at hin
      rcases hin with hin | hin
      · exact hapart _ (rest.mem _ hin) _ (List.mem_cons_of_mem _ (List.mem_map_of_mem hmem)) rfl
      · exact htail.1 (List.mem_map.mpr ⟨bracket, hmem, hin⟩)
    rw [without_append, hkept, hseg, sides_append]
    exact (ih hpre).append balanced

theorem unmatched_openedBy (brackets : List (Side × α)) (hnodup : (brackets.map Prod.snd).Nodup) :
    OpenedBy (without (unmatched brackets).closers brackets) (unmatched brackets).openers ∧
      ∀ x ∈ (unmatched brackets).closers, x ∈ brackets.map Prod.snd := by
  induction brackets using List.reverseRecOn with
  | nil => exact ⟨.none Balanced.nil, by simp⟩
  | append_singleton brackets bracket ih =>
    obtain ⟨side, x⟩ := bracket
    rw [List.map_append, List.nodup_append] at hnodup
    obtain ⟨hbrackets, -, hapart⟩ := hnodup
    have hfresh : x ∉ brackets.map Prod.snd := fun hmem => hapart x hmem x (by simp) rfl
    obtain ⟨hopened, hmem⟩ := ih hbrackets
    have hlast : without (unmatched brackets).closers [(side, x)] = [(side, x)] :=
      without_eq_self fun bracket hb => by
        rw [List.mem_singleton.mp hb]
        exact fun hx => hfresh (hmem x hx)
    have hin : ∀ y ∈ (unmatched brackets).closers, y ∈ (brackets ++ [(side, x)]).map Prod.snd := fun y hy => by
      rw [List.map_append]
      exact List.mem_append_left _ (hmem y hy)
    rw [unmatched_concat]
    cases side with
    | opening =>
      refine ⟨?_, hin⟩
      simp only [Unmatched.step, without_append, hlast]
      exact .one hopened Balanced.nil
    | closing =>
      simp only [Unmatched.step]
      split
      · rename_i hempty
        rw [List.isEmpty_iff] at hempty
        constructor
        · have hsame : without ((unmatched brackets).closers ++ [x]) brackets = without (unmatched brackets).closers brackets := by
            refine List.filter_congr fun bracket hb => ?_
            have hne : bracket.2 ≠ x := fun h => hfresh (h ▸ List.mem_map_of_mem hb)
            simp [hne]
          have hgone : without ((unmatched brackets).closers ++ [x]) [(Side.closing, x)] = [] := by simp [without]
          simp only [without_append, hsame, hgone, List.append_nil]
          exact hopened
        · intro y hy
          rw [List.mem_append, List.mem_singleton] at hy
          rw [List.map_append, List.mem_append]
          rcases hy with hy | rfl
          · exact Or.inl (hmem y hy)
          · exact Or.inr (by simp)
      · rename_i hempty
        refine ⟨?_, hin⟩
        simp only [without_append, hlast]
        exact hopened.close (fun h => hempty (by rw [h]; rfl)) x

/-- Without the brackets that have no partner, the rest is balanced. -/
theorem balanced_without_unmatched (brackets : List (Side × α)) (hnodup : (brackets.map Prod.snd).Nodup) :
    Balanced (sides (without ((unmatched brackets).closers ++ (unmatched brackets).openers) brackets)) := by
  have hsplit : without ((unmatched brackets).closers ++ (unmatched brackets).openers) brackets =
      without (unmatched brackets).openers (without (unmatched brackets).closers brackets) := by
    rw [without, without, without, List.filter_filter]
    refine List.filter_congr fun bracket _ => ?_
    simp [Bool.and_comm]
  have hsub : ((without (unmatched brackets).closers brackets).map Prod.snd).Nodup :=
    hnodup.sublist (List.filter_sublist.map Prod.snd)
  rw [hsplit]
  exact (unmatched_openedBy brackets hnodup).1.balanced hsub

end Partners

end Brackets
end Lib
