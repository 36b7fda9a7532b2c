import Mathlib.Data.List.Perm.Basic
import Mathlib.Data.List.Forall2

/-!
# CodeSage.Lib.Batching

Work that is done in batches and put back in its place.

* `batches fits xs`: a list cut greedily, an element joining the batch before it if it fits there.
* `gather`, `scatter` and `collect`: the items at some places, values written to slots at some places, and all slots read.
  Each is `none` for a panic.
* `Placed R items done slots`: the slots of the places in `done` hold a value that `R` gives for their item.
-/

namespace Lib
namespace Batching

section Cut

variable {α : Type} (fits : List α → α → Bool)

def grow : List α → List α → List (List α)
  | batch, [] => [batch]
  | batch, x :: xs => if fits batch x then grow (batch ++ [x]) xs else batch :: grow [x] xs

def batches : List α → List (List α)
  | [] => []
  | x :: xs => grow fits [x] xs

/-- A batch as it comes about. -/
inductive Grown : List α → Prop where
  | one (x : α) : Grown [x]
  | more {batch : List α} {x : α} : Grown batch → fits batch x = true → Grown (batch ++ [x])

variable {fits}

theorem Grown.ne_nil {batch : List α} (h : Grown fits batch) : batch ≠ [] := by
  cases h <;> simp

theorem grow_flatten (batch xs : List α) : (grow fits batch xs).flatten = batch ++ xs := by
  induction xs generalizing batch with
  | nil => simp [grow]
  | cons x xs ih =>
    rw [grow]
    split
    · rw [ih, List.append_assoc, List.singleton_append]
    · rw [List.flatten_cons, ih, List.singleton_append]

theorem grow_grown {batch : List α} (h : Grown fits batch) (xs : List α) : ∀ b ∈ grow fits batch xs, Grown fits b := by
  induction xs generalizing batch with
  | nil =>
    rintro b hb
    obtain rfl := List.mem_singleton.mp hb
    exact h
  | cons x xs ih =>
    rw [grow]
    split
    · next hfits => exact ih (.more h hfits)
    · rintro b hb
      rcases List.mem_cons.mp hb with rfl | hb
      · exact h
      · exact ih (.one x) b hb

@[simp]
theorem batches_flatten (xs : List α) : (batches fits xs).flatten = xs := by
  cases xs with
  | nil => rfl
  | cons x xs => rw [batches, grow_flatten, List.singleton_append]

theorem batches_grown (xs : List α) : ∀ b ∈ batches fits xs, Grown fits b := by
  cases xs with
  | nil => nofun
  | cons x xs => exact grow_grown (.one x) xs

theorem mem_of_mem_batches {xs b : List α} (hb : b ∈ batches fits xs) {x : α} (hx : x ∈ b) : x ∈ xs := by
  rw [← @batches_flatten _ fits xs]
  exact List.mem_flatten.mpr ⟨b, hb, hx⟩

end Cut

section Slots

variable {τ ν : Type}

/-- The items at some places. -/
def gather (items : List τ) (places : List Nat) : Option (List τ) := places.mapM fun i => items[i]?

/-- Values written to the slots at some places, as far as both lists go. -/
def scatter : List (Option ν) → List Nat → List ν → Option (List (Option ν))
  | slots, i :: places, v :: values => if i < slots.length then scatter (slots.set i (some v)) places values else none
  | slots, [], _ => some slots
  | slots, _, [] => some slots

/-- Every slot with its value. -/
def collect (slots : List (Option ν)) : Option (List ν) := slots.mapM id

structure Placed (R : τ → ν → Prop) (items : List τ) (done : Nat → Prop) (slots : List (Option ν)) : Prop where
  length : slots.length = items.length
  filled : ∀ i, done i → ∀ t, items[i]? = some t → ∃ v, slots[i]? = some (some v) ∧ R t v

variable {R : τ → ν → Prop} {items : List τ}

theorem placed_empty (R : τ → ν → Prop) (items : List τ) :
    Placed R items (fun _ => False) (List.replicate items.length none) := ⟨by simp, nofun⟩

theorem Placed.mono {done done' : Nat → Prop} {slots : List (Option ν)} (h : Placed R items done slots)
    (hsub : ∀ i, done' i → done i) : Placed R items done' slots := ⟨h.length, fun i hi => h.filled i (hsub i hi)⟩

theorem gather_some {places : List Nat} (h : ∀ i ∈ places, i < items.length) :
    ∃ chunk, gather items places = some chunk ∧ List.Forall₂ (fun i t => items[i]? = some t) places chunk := by
  induction places with
  | nil => exact ⟨[], rfl, .nil⟩
  | cons i places ih =>
    obtain ⟨chunk, hchunk, hall⟩ := ih fun j hj => h j (List.mem_cons_of_mem _ hj)
    have hlt : i < items.length := h i List.mem_cons_self
    have hi : items[i]? = some items[i] := List.getElem?_eq_getElem hlt
    refine ⟨items[i] :: chunk, ?_, .cons hi hall⟩
    rw [gather] at hchunk
    rw [gather, List.mapM_cons, hi, hchunk]
    rfl

/-- Writing a value to the slot of its item. -/
theorem Placed.set {done : Nat → Prop} {slots : List (Option ν)} (h : Placed R items done slots) {i : Nat} {t : τ}
    {v : ν} (hi : items[i]? = some t) (hv : R t v) :
    Placed R items (fun j => done j ∨ j = i) (slots.set i (some v)) := by
  have hlt : i < slots.length := h.length ▸ (List.getElem?_eq_some_iff.mp hi).1
  refine ⟨by rw [List.length_set, h.length], fun j hj u hu => ?_⟩
  rcases eq_or_ne i j with rfl | hne
  · obtain rfl := Option.some.inj (hi.symm.trans hu)
    exact ⟨v, List.getElem?_set_self hlt, hv⟩
  · rw [List.getElem?_set_ne hne]
    exact h.filled j (hj.resolve_right (Ne.symm hne)) u hu

/-- A batch of values goes to the slots of its items. -/
theorem Placed.scatter {done : Nat → Prop} {slots : List (Option ν)} (h : Placed R items done slots)
    {places : List Nat} {chunk : List τ} {values : List ν}
    (hplaces : List.Forall₂ (fun i t => items[i]? = some t) places chunk) (hvalues : List.Forall₂ R chunk values) :
    ∃ slots', scatter slots places values = some slots' ∧ Placed R items (fun j => done j ∨ j ∈ places) slots' := by
  induction hplaces generalizing done slots values with
  | nil =>
    cases hvalues
    exact ⟨slots, rfl, h.mono fun j hj => hj.resolve_right List.not_mem_nil⟩
  | @cons i t places chunk hi _ ih =>
    cases hvalues with
    | @cons _ v _ values hv hrest =>
      have hlt : i < slots.length := h.length ▸ (List.getElem?_eq_some_iff.mp hi).1
      obtain ⟨slots', hrun, hplaced⟩ := ih (h.set hi hv) hrest
      refine ⟨slots', by rw [Batching.scatter, if_pos hlt, hrun], hplaced.mono fun j hj => ?_⟩
      rcases hj with hdone | hmem
      · exact .inl (.inl hdone)
      · exact (List.mem_cons.mp hmem).elim (fun heq => .inl (.inr heq)) .inr

/-- Once every slot is filled the values stand in the order of the items. -/
theorem Placed.collect {done : Nat → Prop} {slots : List (Option ν)} (h : Placed R items done slots)
    (hdone : ∀ i < items.length, done i) : ∃ values, collect slots = some values ∧ List.Forall₂ R items values := by
  induction items generalizing done slots with
  | nil =>
    obtain rfl := List.eq_nil_of_length_eq_zero h.length
    exact ⟨[], rfl, .nil⟩
  | cons t items ih =>
    obtain ⟨v, hv, hR⟩ := h.filled 0 (hdone 0 (by simp)) t rfl
    match slots with
    | [] => cases hv
    | slot :: slots =>
      obtain rfl : slot = some v := Option.some.inj hv
      obtain ⟨values, hvalues, hall⟩ := @ih (fun i => done (i + 1)) slots
        ⟨Nat.succ.inj h.length, fun i hi u hu => h.filled (i + 1) hi u hu⟩
        fun i hi => hdone (i + 1) (Nat.succ_lt_succ hi)
      refine ⟨v :: values, ?_, .cons hR hall⟩
      rw [Batching.collect] at hvalues
      rw [Batching.collect, List.mapM_cons, hvalues]
      rfl

end Slots

end Batching
end Lib
