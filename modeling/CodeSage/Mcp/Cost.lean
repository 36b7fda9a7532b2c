import CodeSage.Lib.Json
import Mathlib.Tactic.Ring

/-!
# CodeSage.Mcp.Cost

The cost record of a reply, `stamp_cost` (`crates/cli/src/mcp/detail.rs`): the number of bytes it writes is part of
what it counts.

`stamp_cost_settles`: the four rounds suffice, from any number a reply may still carry.
-/

namespace CodeSage
namespace Mcp
namespace Cost

open Lib Lib.Json

section Code

inductive Detail where
  | compact
  | standard
  | full
deriving DecidableEq, Repr

def Detail.asStr : Detail → Text
  | .compact => "compact".toList
  | .standard => "standard".toList
  | .full => "full".toList

def COST : Text := "cost".toList
def BYTES : Text := "bytes".toList
def BUDGET_EXCEEDED : Text := "budget_exceeded".toList

/-- `cost.remove("budget_exceeded")`, where there is a cost. -/
def removeFlag : Json → Json
  | .obj members =>
    match lookup COST members with
    | some (.obj cost) => .obj (insert COST (.obj (swapRemove BUDGET_EXCEEDED cost)) members)
    | _ => .obj members
  | value => value

/-- What is written into the cost before the bytes are counted; `elapsed` is in milliseconds. -/
def fields (detail : Detail) (elapsed : Nat) (cap : Option Nat) (notes : List Text) : Members :=
  (if notes.isEmpty then [] else [("notes".toList, .arr (notes.map .str))]) ++
    [("ms".toList, .num (.nat (elapsed % 2 ^ 64))), ("detail".toList, .str detail.asStr)] ++
    cap.toList.map fun c => ("budget_tokens".toList, .num (.nat (c / 4)))

/-- `value["cost"][key] = new` for each of them; `none` where indexing panics. -/
def write (value : Json) (entries : Members) : Option Json :=
  entries.foldlM (fun value entry => assign [COST, entry.1] entry.2 value) value

def Exceeds (cap : Option Nat) (bytes : Nat) : Prop := ∃ c ∈ cap, c < bytes

instance (cap : Option Nat) (bytes : Nat) : Decidable (Exceeds cap bytes) :=
  match cap with
  | none => isFalse nofun
  | some c => decidable_of_iff (c < bytes) (by simp [Exceeds])

def round (cap : Option Nat) (value : Json) : Option Json := do
  let bytes := value.size
  let value ← assign [COST, BYTES] (.num (.nat bytes)) value
  if Exceeds cap bytes then assign [COST, BUDGET_EXCEEDED] (.bool true) value else some value

def rounds (cap : Option Nat) : Nat → Json → Option Json
  | 0, value => some value
  | n + 1, value => do
    let next ← round cap value
    if next.size = value.size then some next else rounds cap n next

def stampCost (value : Json) (detail : Detail) (elapsed : Nat) (cap : Option Nat) (notes : List Text) : Option Json := do
  let value ← write (removeFlag value) (fields detail elapsed cap notes)
  rounds cap 4 value

end Code

section Numbers

/-- From `w` on, for as long as the count of a reply can grow, there is at most one power of ten. -/
theorem digits_window {w : Nat} (hw : 0 < w) :
    ∃ p, ∀ x, w ≤ x → x ≤ w + 40 + (decimal w).length →
      x < p ∧ (decimal x).length = (decimal w).length ∨ p ≤ x ∧ (decimal x).length = (decimal w).length + 1 := by
  have hle : ∀ {x k : Nat}, 0 < k → ((decimal x).length ≤ k ↔ x < 10 ^ k) := fun hk => Nat.length_toDigits_le_iff (by decide) hk
  generalize hn : (decimal w).length = n
  have hpos : 0 < n := by
    rw [← hn, List.length_pos_iff]
    exact Nat.toDigits_ne_nil
  have hlt : w < 10 ^ n := (hle hpos).mp hn.le
  have hlow : ∀ x, w ≤ x → n ≤ (decimal x).length := by
    intro x hx
    by_contra hshort
    have hless : (decimal x).length ≤ n - 1 := by omega
    rcases Nat.eq_zero_or_pos (n - 1) with hzero | hmore
    · have : 0 < (decimal x).length := List.length_pos_iff.mpr Nat.toDigits_ne_nil
      omega
    · have := (hle hmore).mpr (hx.trans_lt ((hle hmore).mp hless))
      omega
  have hgrow : n < 10 ^ n := Nat.lt_pow_self (by decide)
  have hten : 10 ≤ 10 ^ n := Nat.le_self_pow hpos.ne' 10
  have hnext : 10 ^ (n + 1) = 10 * 10 ^ n := by ring
  refine ⟨10 ^ n, fun x hwx hx => ?_⟩
  by_cases hxp : x < 10 ^ n
  · exact Or.inl ⟨hxp, le_antisymm ((hle hpos).mpr hxp) (hlow x hwx)⟩
  · refine Or.inr ⟨by omega, le_antisymm ((hle (by omega)).mpr (by omega)) ?_⟩
    by_contra hshort
    exact hxp ((hle hpos).mp (by omega))

/-- Without a bound on the bytes: the fourth count is right. -/
theorem fourth_count {base n p x₂ x₃ x₄ x₅ d₂ d₃ d₄ : Nat}
    (hwindow₂ : x₂ < p ∧ d₂ = n ∨ p ≤ x₂ ∧ d₂ = n + 1) (hwindow₃ : x₃ < p ∧ d₃ = n ∨ p ≤ x₃ ∧ d₃ = n + 1)
    (hwindow₄ : x₄ < p ∧ d₄ = n ∨ p ≤ x₄ ∧ d₄ = n + 1)
    (h₃ : x₃ = base + d₂) (h₄ : x₄ = base + d₃) (h₅ : x₅ = base + d₄) : x₅ = x₄ := by
  omega

/-- With one: the fourth count is right, and where a count exceeds the bound the next one does. -/
theorem fourth_count_capped {base n p c x₁ x₂ x₃ x₄ x₅ d₁ d₂ d₃ d₄ f₁ f₂ f₃ f₄ : Nat} (hn : 0 < n)
    (hwindow₁ : x₁ < p ∧ d₁ = n ∨ p ≤ x₁ ∧ d₁ = n + 1) (hwindow₂ : x₂ < p ∧ d₂ = n ∨ p ≤ x₂ ∧ d₂ = n + 1)
    (hwindow₃ : x₃ < p ∧ d₃ = n ∨ p ≤ x₃ ∧ d₃ = n + 1) (hwindow₄ : x₄ < p ∧ d₄ = n ∨ p ≤ x₄ ∧ d₄ = n + 1)
    (hf₁ : c < x₁ ∧ f₁ = 23 ∨ x₁ ≤ c ∧ f₁ = 0) (hf₂ : (0 < f₁ ∨ c < x₂) ∧ f₂ = 23 ∨ (f₁ = 0 ∧ x₂ ≤ c) ∧ f₂ = 0)
    (hf₃ : (0 < f₂ ∨ c < x₃) ∧ f₃ = 23 ∨ (f₂ = 0 ∧ x₃ ≤ c) ∧ f₃ = 0) (hf₄ : (0 < f₃ ∨ c < x₄) ∧ f₄ = 23 ∨ (f₃ = 0 ∧ x₄ ≤ c) ∧ f₄ = 0)
    (h₁ : x₁ + 9 = base ∨ base ≤ x₁ ∧ x₁ ≤ base + 24)
    (h₂ : x₂ = base + f₁ + d₁) (h₃ : x₃ = base + f₂ + d₂) (h₄ : x₄ = base + f₃ + d₃) (h₅ : x₅ = base + f₄ + d₄) :
    x₅ = x₄ ∧ (0 < f₁ → c < x₂) ∧ (0 < f₂ → c < x₃) ∧ (0 < f₃ → c < x₄) ∧ (0 < f₄ → c < x₅) := by
  rcases hf₁ with ⟨hexceeds, rfl⟩ | ⟨hfits₁, rfl⟩
  · obtain rfl : f₂ = 23 := by omega
    obtain rfl : f₃ = 23 := by omega
    obtain rfl : f₄ = 23 := by omega
    clear hf₂ hf₃ hf₄
    refine ⟨?_, ?_, ?_, ?_, ?_⟩ <;> omega
  · rcases hf₂ with ⟨hexceeds, rfl⟩ | ⟨hfits₂, rfl⟩
    · obtain rfl : f₃ = 23 := by omega
      obtain rfl : f₄ = 23 := by omega
      refine ⟨?_, ?_, ?_, ?_, ?_⟩ <;> omega
    · rcases hf₃ with ⟨hexceeds, rfl⟩ | ⟨hfits₃, rfl⟩
      · obtain rfl : f₄ = 23 := by omega
        refine ⟨?_, ?_, ?_, ?_, ?_⟩ <;> omega
      · refine ⟨?_, ?_, ?_, ?_, ?_⟩ <;> omega

end Numbers

section Frame

variable {members cost : Members} {frame : Nat}

theorem size_le_membersSize {key : Text} {value : Json} (h : lookup key members = some value) :
    keySize key + value.size ≤ membersSize members := by
  induction members with
  | nil => simp [lookup] at h
  | cons member members ih =>
    obtain ⟨first, old⟩ := member
    rw [lookup] at h
    rw [membersSize_cons]
    split at h
    · rename_i hfirst
      cases h
      rw [hfirst]
      omega
    · have := ih h
      omega

/-- An object with its cost, and the bytes around what the cost holds. -/
structure CostAt (members cost : Members) (frame : Nat) : Prop where
  found : lookup COST members = some (.obj cost)
  nonempty : cost ≠ []
  size : Json.size (.obj members) = frame + membersSize cost

theorem CostAt.assign (h : CostAt members cost frame) (key : Text) (new : Json) :
    ∃ members', Json.assign [COST, key] new (.obj members) = some (.obj members') ∧ CostAt members' (insert key new cost) frame := by
  refine ⟨insert COST (.obj (insert key new cost)) members, by simp [Json.assign, h.found], ?_⟩
  have hne : members ≠ [] := by
    rintro rfl
    exact absurd h.found (by simp [lookup])
  refine ⟨by simp [lookup_insert], insert_ne_nil _, ?_⟩
  have hsize := h.size
  have hreplace := membersSize_replace h.found (.obj (insert key new cost))
  rw [size_obj hne] at hsize
  rw [size_obj h.nonempty, size_obj (insert_ne_nil _)] at hreplace
  rw [size_obj (insert_ne_nil _)]
  omega

/-- The members of the cost an object carries. -/
def costOf (members : Members) : Members :=
  match lookup COST members with
  | some (.obj cost) => cost
  | _ => []

theorem CostAt.first (h : lookup COST members = none ∨ ∃ cost, lookup COST members = some (.obj cost)) (key : Text) (new : Json) :
    ∃ members' frame, Json.assign [COST, key] new (.obj members) = some (.obj members') ∧
      CostAt members' (insert key new (costOf members)) frame ∧ 0 < frame := by
  have hassign : Json.assign [COST, key] new (.obj members) = some (.obj (insert COST (.obj (insert key new (costOf members))) members)) := by
    rcases h with h | ⟨cost, h⟩ <;> simp [Json.assign, costOf, h, Json.insert]
  have hfound : lookup COST (insert COST (.obj (insert key new (costOf members))) members) = some (.obj (insert key new (costOf members))) := by
    simp [lookup_insert]
  have hle := size_le_membersSize hfound
  rw [size_obj (insert_ne_nil _)] at hle
  have hsize := size_obj (@insert_ne_nil members COST (.obj (insert key new (costOf members))))
  refine ⟨_, Json.size (.obj (insert COST (.obj (insert key new (costOf members))) members)) - membersSize (insert key new (costOf members)),
    hassign, ⟨hfound, insert_ne_nil _, ?_⟩, ?_⟩ <;> omega

/-- The rest of the fields, none of them one that is read again. -/
theorem CostAt.write (h : CostAt members cost frame) {entries : Members} (hkeys : ∀ entry ∈ entries, entry.1 ≠ BYTES ∧ entry.1 ≠ BUDGET_EXCEEDED) :
    ∃ members' cost', Cost.write (.obj members) entries = some (.obj members') ∧ CostAt members' cost' frame ∧
      lookup BYTES cost' = lookup BYTES cost ∧ lookup BUDGET_EXCEEDED cost' = lookup BUDGET_EXCEEDED cost := by
  induction entries generalizing members cost with
  | nil => exact ⟨members, cost, rfl, h, rfl, rfl⟩
  | cons entry entries ih =>
    obtain ⟨hentry, hrest⟩ := List.forall_mem_cons.mp hkeys
    obtain ⟨members', hassign, hnext⟩ := h.assign entry.1 entry.2
    obtain ⟨members'', cost', hwrite, hcost', hbytes, hflag⟩ := ih hnext hrest
    refine ⟨members'', cost', ?_, hcost', ?_, ?_⟩
    · rw [Cost.write, List.foldlM_cons, hassign]
      exact hwrite
    · rw [hbytes, lookup_insert, if_neg hentry.1.symm]
    · rw [hflag, lookup_insert, if_neg hentry.2.symm]

end Frame

section Rounds

variable {cap : Option Nat} {base : Nat} {value : Json} {flag : Bool}

def flagSize (flag : Bool) : Nat := if flag then 23 else 0

/-- A value with the flag set or not, whose bytes are `base` without it and without the digits of the number. -/
inductive Ready (base : Nat) : Json → Bool → Prop where
  | mk {members cost : Members} {frame : Nat} {flag : Bool} (at_ : CostAt members cost frame)
    (flagged : lookup BUDGET_EXCEEDED cost = if flag then some (.bool true) else none)
    (count : lookup BYTES cost = none ∧ Json.size (.obj members) + 9 = base + flagSize flag ∨
      ∃ old, lookup BYTES cost = some old ∧ Json.size (.obj members) = base + flagSize flag + size old) :
    Ready base (.obj members) flag

/-- What a round leaves: the size before it as its number, and the flag where that exceeds the cap. -/
theorem Ready.round (h : Ready base value flag) :
    ∃ next, Cost.round cap value = some next ∧ Ready base next (flag || decide (Exceeds cap value.size)) ∧
      next.getIn [COST, BYTES] = some (.num (.nat value.size)) ∧
      next.size = base + flagSize (flag || decide (Exceeds cap value.size)) + (decimal value.size).length := by
  obtain @⟨members, cost, frame, _, hat, hflagged, hcount⟩ := h
  have hkeyBytes : keySize BYTES = 9 := by decide
  have hkeyFlag : keySize BUDGET_EXCEEDED = 19 := by decide
  have hkeys : BUDGET_EXCEEDED ≠ BYTES := by decide
  obtain ⟨counted, hassign, hat'⟩ := hat.assign BYTES (.num (.nat (Json.size (.obj members))))
  have hsize := hat.size
  have hsize' := hat'.size
  have hcounted : Json.size (.obj counted) = base + flagSize flag + (decimal (Json.size (.obj members))).length := by
    rw [← size_num]
    rcases hcount with ⟨hnone, hbase⟩ | ⟨old, hold, hbase⟩
    · rw [membersSize_add hnone] at hsize'
      omega
    · have := membersSize_replace hold (.num (.nat (Json.size (.obj members))))
      omega
  have hbytes : lookup BYTES (insert BYTES (.num (.nat (Json.size (.obj members)))) cost) = some (.num (.nat (Json.size (.obj members)))) := by
    simp [lookup_insert]
  have hflag : lookup BUDGET_EXCEEDED (insert BYTES (.num (.nat (Json.size (.obj members)))) cost) = if flag then some (.bool true) else none := by
    rw [lookup_insert, if_neg hkeys, hflagged]
  by_cases hexceeds : Exceeds cap (Json.size (.obj members))
  · obtain ⟨marked, hmark, hat''⟩ := hat'.assign BUDGET_EXCEEDED (.bool true)
    have hsize'' := hat''.size
    have hmarked : Json.size (.obj marked) = base + flagSize true + (decimal (Json.size (.obj members))).length := by
      cases flag with
      | true =>
        have := membersSize_replace hflag (.bool true)
        omega
      | false =>
        rw [membersSize_add hflag, hkeyFlag, size_true] at hsize''
        simp only [flagSize, Bool.false_eq_true, if_false, if_true] at hcounted ⊢
        omega
    have hbytes' := @lookup_insert (insert BYTES (.num (.nat (Json.size (.obj members)))) cost) BUDGET_EXCEEDED (.bool true) BYTES
    rw [if_neg hkeys.symm, hbytes] at hbytes'
    rw [decide_eq_true hexceeds, Bool.or_true]
    refine ⟨.obj marked, by simp [Cost.round, hassign, hexceeds, hmark], ⟨hat'', by simp [lookup_insert], Or.inr ⟨_, hbytes', ?_⟩⟩, ?_, hmarked⟩
    · rw [hmarked, size_num]
    · simp [getIn, Json.get, hat''.found, hbytes']
  · rw [decide_eq_false hexceeds, Bool.or_false]
    refine ⟨.obj counted, by simp [Cost.round, hassign, hexceeds], ⟨hat', hflag, Or.inr ⟨_, hbytes, ?_⟩⟩, ?_, hcounted⟩
    · rw [hcounted, size_num]
    · simp [getIn, Json.get, hat'.found, hbytes]

/-- The record of a reply is right: its number is the size of the reply, and it says whether that exceeds the cap. -/
structure Stamped (cap : Option Nat) (value : Json) : Prop where
  bytes : value.getIn [COST, BYTES] = some (.num (.nat value.size))
  exceeded : ∀ c ∈ cap, value.getIn [COST, BUDGET_EXCEEDED] = some (.bool true) ↔ c < value.size

theorem Ready.getIn_flag (h : Ready base value flag) : value.getIn [COST, BUDGET_EXCEEDED] = if flag then some (.bool true) else none := by
  obtain ⟨hat, hflagged, -⟩ := h
  rw [← hflagged]
  simp only [getIn, Json.get, hat.found, Option.bind_some]
  cases lookup BUDGET_EXCEEDED _ <;> rfl

theorem Ready.stamped {bytes : Nat} (h : Ready base value flag) (hbytes : value.getIn [COST, BYTES] = some (.num (.nat bytes)))
    (hsize : value.size = bytes) (hflag : ∀ c ∈ cap, 0 < flagSize flag ↔ c < value.size) : Stamped cap value := by
  refine ⟨by rw [hbytes, hsize], fun c hc => ?_⟩
  rw [h.getIn_flag, ← hflag c hc]
  cases flag <;> simp [flagSize]

theorem flagSize_le (flag : Bool) : flagSize flag ≤ 23 := by cases flag <;> decide

theorem flagSize_or (flag : Bool) (c x : Nat) :
    (0 < flagSize flag ∨ c < x) ∧ flagSize (flag || decide (Exceeds (some c) x)) = 23 ∨
      (flagSize flag = 0 ∧ x ≤ c) ∧ flagSize (flag || decide (Exceeds (some c) x)) = 0 := by
  have hexceeds : Exceeds (some c) x ↔ c < x := by simp [Exceeds]
  by_cases hx : c < x
  · simp [flagSize, hexceeds, hx]
  · have hle := Nat.le_of_not_lt hx
    cases flag <;> simp [flagSize, hexceeds, hx, hle]

/-- The loop ends in the first round that leaves the size as it was, or after the fourth. -/
theorem Ready.rounds (h : Ready base value false) (hbase : 9 < base)
    (hfirst : value.size + 9 = base ∨ base ≤ value.size ∧ (value.size ≤ base + 24 ∨ cap = none ∧ (decimal value.size).length ≤ 20)) :
    ∃ out, Cost.rounds cap 4 value = some out ∧ Stamped cap out := by
  obtain ⟨v₁, hround₁, hready₁, hbytes₁, hsize₁⟩ := @Ready.round cap _ _ _ h
  obtain ⟨v₂, hround₂, hready₂, hbytes₂, hsize₂⟩ := @Ready.round cap _ _ _ hready₁
  obtain ⟨v₃, hround₃, hready₃, hbytes₃, hsize₃⟩ := @Ready.round cap _ _ _ hready₂
  obtain ⟨v₄, hround₄, hready₄, hbytes₄, hsize₄⟩ := @Ready.round cap _ _ _ hready₃
  obtain ⟨p, hwindow⟩ := digits_window (w := base - 9) (by omega)
  have hdigits : 0 < (decimal (base - 9)).length := List.length_pos_iff.mpr Nat.toDigits_ne_nil
  generalize (decimal (base - 9)).length = n at hwindow hdigits
  have hunroll : Cost.rounds cap 4 value = some (if v₁.size = value.size then v₁ else if v₂.size = v₁.size then v₂
      else if v₃.size = v₂.size then v₃ else v₄) := by
    simp only [Cost.rounds, hround₁, hround₂, hround₃, hround₄, Option.bind_eq_bind, Option.bind_some]
    split_ifs <;> rfl
  refine ⟨_, hunroll, ?_⟩
  cases cap with
  | none =>
    have hnone : ∀ x, decide (Exceeds none x) = false := fun x => decide_eq_false nofun
    simp only [hnone, Bool.or_false, flagSize, Bool.false_eq_true, if_false, Nat.add_zero] at hready₁ hready₂ hready₃ hready₄ hsize₁ hsize₂ hsize₃ hsize₄
    have hsmall : (decimal value.size).length ≤ 21 + n := by
      rcases hfirst with hfirst | ⟨hle, hfirst | hfirst⟩
      · have := hwindow value.size (by omega) (by omega)
        omega
      · have := hwindow value.size (by omega) (by omega)
        omega
      · omega
    have hwindow₂ := hwindow v₁.size (by omega) (by omega)
    have hwindow₃ := hwindow v₂.size (by omega) (by omega)
    have hwindow₄ := hwindow v₃.size (by omega) (by omega)
    have hlast := fourth_count hwindow₂ hwindow₃ hwindow₄ hsize₂ hsize₃ hsize₄
    split_ifs with h₁ h₂ h₃
    · exact hready₁.stamped hbytes₁ h₁ nofun
    · exact hready₂.stamped hbytes₂ h₂ nofun
    · exact hready₃.stamped hbytes₃ h₃ nofun
    · exact hready₄.stamped hbytes₄ hlast nofun
  | some c =>
    have hle₁ := flagSize_le (false || decide (Exceeds (some c) value.size))
    have hle₂ := flagSize_le (false || decide (Exceeds (some c) value.size) || decide (Exceeds (some c) v₁.size))
    have hle₃ := flagSize_le (false || decide (Exceeds (some c) value.size) || decide (Exceeds (some c) v₁.size) ||
      decide (Exceeds (some c) v₂.size))
    have hclose : value.size + 9 = base ∨ base ≤ value.size ∧ value.size ≤ base + 24 :=
      hfirst.imp_right fun h => ⟨h.1, h.2.resolve_right nofun⟩
    have hwindow₁ := hwindow value.size (by omega) (by omega)
    have hwindow₂ := hwindow v₁.size (by omega) (by omega)
    have hwindow₃ := hwindow v₂.size (by omega) (by omega)
    have hwindow₄ := hwindow v₃.size (by omega) (by omega)
    have hflag₁ := flagSize_or false c value.size
    have hflag₂ := flagSize_or (false || decide (Exceeds (some c) value.size)) c v₁.size
    have hflag₃ := flagSize_or (false || decide (Exceeds (some c) value.size) || decide (Exceeds (some c) v₁.size)) c v₂.size
    have hflag₄ := flagSize_or (false || decide (Exceeds (some c) value.size) || decide (Exceeds (some c) v₁.size) ||
      decide (Exceeds (some c) v₂.size)) c v₃.size
    obtain ⟨hlast, hlasts₁, hlasts₂, hlasts₃, hlasts₄⟩ :=
      fourth_count_capped hdigits hwindow₁ hwindow₂ hwindow₃ hwindow₄ (by simpa [flagSize] using hflag₁) hflag₂ hflag₃ hflag₄
        hclose hsize₁ hsize₂ hsize₃ hsize₄
    have hstays : ∀ {flag : Bool} {x : Nat} {next : Json}, next.size = x →
        (0 < flagSize (flag || decide (Exceeds (some c) x)) → c < next.size) →
        ∀ c' ∈ some c, 0 < flagSize (flag || decide (Exceeds (some c) x)) ↔ c' < next.size := by
      rintro flag x next hsame hlasts c' hc'
      cases hc'
      refine ⟨hlasts, fun hlt => ?_⟩
      have hexceeds : Exceeds (some c) x := ⟨c, rfl, by omega⟩
      simp [flagSize, hexceeds]
    split_ifs with h₁ h₂ h₃
    · exact hready₁.stamped hbytes₁ h₁ (hstays h₁ hlasts₁)
    · exact hready₂.stamped hbytes₂ h₂ (hstays h₂ hlasts₂)
    · exact hready₃.stamped hbytes₃ h₃ (hstays h₃ hlasts₃)
    · exact hready₄.stamped hbytes₄ hlast (hstays hlast hlasts₄)

end Rounds

section Reply

variable {object : JsonObject} {detail : Detail} {elapsed : Nat} {cap : Option Nat} {notes : List Text}

/-- Without its flag, an object has the cost it had. -/
theorem removeFlag_spec (hcost : object.value.get COST = none ∨ ∃ cost, object.value.get COST = some (.obj cost)) :
    ∃ members, removeFlag object.value = .obj members ∧ (lookup COST members = none ∨ ∃ cost, lookup COST members = some (.obj cost)) ∧
      lookup BUDGET_EXCEEDED (costOf members) = none ∧ lookup BYTES (costOf members) = object.value.getIn [COST, BYTES] := by
  obtain ⟨members, hdistinct⟩ := object
  simp only [JsonObject.value, Json.get] at hcost ⊢
  rcases hcost with hnone | ⟨cost, hcost⟩
  · exact ⟨members, by simp [removeFlag, hnone], Or.inl hnone, by simp [costOf, hnone, lookup], by simp [costOf, getIn, Json.get, hnone, lookup]⟩
  · have hkeys : (cost.map Prod.fst).Nodup := (distinct_obj.mp ((distinct_obj.mp hdistinct).2 _ (mem_of_lookup hcost))).1
    have hflag : BYTES ≠ BUDGET_EXCEEDED := by decide
    refine ⟨insert COST (.obj (swapRemove BUDGET_EXCEEDED cost)) members, by simp [removeFlag, hcost], Or.inr ⟨_, by simp [lookup_insert]; rfl⟩, ?_, ?_⟩
    · simp [costOf, lookup_insert, lookup_swapRemove hkeys]
    · simp only [costOf, lookup_insert, if_true, lookup_swapRemove hkeys, if_neg hflag, getIn, Json.get, hcost, Option.bind_some]
      cases lookup BYTES cost <;> rfl

/-- The value whose bytes are counted first. -/
theorem ready_of_write (hcost : object.value.get COST = none ∨ ∃ cost, object.value.get COST = some (.obj cost)) :
    ∃ value base, write (removeFlag object.value) (fields detail elapsed cap notes) = some value ∧ Ready base value false ∧ 9 < base ∧
      (object.value.getIn [COST, BYTES] = none ∧ value.size + 9 = base ∨
        ∃ stale, object.value.getIn [COST, BYTES] = some stale ∧ value.size = base + stale.size) := by
  obtain ⟨members, hremove, hfound, hflag, hbytes⟩ := removeFlag_spec hcost
  have hkeys : ∀ entry ∈ fields detail elapsed cap notes, entry.1 ≠ BYTES ∧ entry.1 ≠ BUDGET_EXCEEDED := by
    simp only [fields, List.forall_mem_append, List.forall_mem_cons, List.forall_mem_map]
    refine ⟨⟨?_, by decide, by decide, nofun⟩, fun _ _ => by decide⟩
    split
    · exact nofun
    · exact List.forall_mem_singleton.mpr (by decide : "notes".toList ≠ BYTES ∧ "notes".toList ≠ BUDGET_EXCEEDED)
  have hne : fields detail elapsed cap notes ≠ [] := by simp [fields]
  obtain ⟨first, rest, hfields⟩ := List.exists_cons_of_ne_nil hne
  rw [hfields] at hkeys ⊢
  obtain ⟨hfirst, hrest⟩ := List.forall_mem_cons.mp hkeys
  obtain ⟨begun, frame, hassign, hat, hframe⟩ := CostAt.first hfound first.1 first.2
  obtain ⟨written, cost, hwrite, hat', hbytes', hflag'⟩ := hat.write hrest
  have hrun : write (removeFlag object.value) (first :: rest) = some (.obj written) := by
    rw [write, List.foldlM_cons, hremove, hassign]
    exact hwrite
  have hsize := hat'.size
  rw [lookup_insert, if_neg hfirst.1.symm, hbytes] at hbytes'
  rw [lookup_insert, if_neg hfirst.2.symm, hflag] at hflag'
  cases hold : object.value.getIn [COST, BYTES] with
  | none =>
    rw [hold] at hbytes'
    exact ⟨_, Json.size (.obj written) + 9, hrun, ⟨hat', hflag', Or.inl ⟨hbytes', rfl⟩⟩, by omega, Or.inl ⟨rfl, rfl⟩⟩
  | some stale =>
    rw [hold] at hbytes'
    have hkey : keySize BYTES = 9 := by decide
    have hle := size_le_membersSize hbytes'
    have hbase : Json.size (.obj written) = Json.size (.obj written) - stale.size + stale.size := by omega
    exact ⟨_, Json.size (.obj written) - stale.size, hrun, ⟨hat', hflag', Or.inr ⟨stale, hbytes', hbase⟩⟩, by omega,
      Or.inr ⟨stale, rfl, hbase⟩⟩

/-- The record of a reply is right after the stamp, whatever stamp it carries: a number prints in at most 24 bytes,
and a text is no longer than a string can be. -/
theorem stamp_cost_settles (hcost : object.value.get COST = none ∨ ∃ cost, object.value.get COST = some (.obj cost))
    (hstale : ∀ stale, object.value.getIn [COST, BYTES] = some stale → stale.size ≤ 24 ∨ cap = none)
    (hsize : ∀ value, write (removeFlag object.value) (fields detail elapsed cap notes) = some value → value.size < 2 ^ 63) :
    ∃ out, stampCost object.value detail elapsed cap notes = some out ∧ Stamped cap out := by
  obtain ⟨value, base, hwrite, hready, hbase, hcount⟩ := @ready_of_write _ detail elapsed cap notes hcost
  have hdigits : (decimal value.size).length ≤ 20 :=
    (Nat.length_toDigits_le_iff (by decide) (by decide)).mpr ((hsize value hwrite).trans (by decide))
  obtain ⟨out, hrounds, hstamped⟩ := @Ready.rounds cap _ _ hready hbase (by
    rcases hcount with ⟨-, hsum⟩ | ⟨stale, hold, hsum⟩
    · exact Or.inl hsum
    · refine Or.inr ⟨by omega, (hstale stale hold).imp (fun hshort => by omega) fun hnone => ⟨hnone, hdigits⟩⟩)
  exact ⟨out, by simp only [stampCost, hwrite, Option.bind_eq_bind, Option.bind_some, hrounds], hstamped⟩

/-- A reply with the stamp of an earlier round. -/
def restamped : JsonObject where
  members := [("results".toList, .arr [.null]), (COST, .obj [(BYTES, .num (.nat 100)), (BUDGET_EXCEEDED, .bool true)])]
  distinct := by decide

theorem stamp_cost_settles_restamped :
    ∃ out, stampCost restamped.value .full 12 (some 96) ["old name".toList] = some out ∧ Stamped (some 96) out :=
  stamp_cost_settles (Or.inr ⟨_, rfl⟩) (by rintro stale hstale; cases hstale; exact Or.inl (by decide))
    (by rintro value hwrite; cases hwrite; decide)

/-- A reply with a text for its bytes. -/
def texted : JsonObject where
  members := [(COST, .obj [(BYTES, .str (List.replicate 30 'x'))])]
  distinct := by decide

/-- The text is counted before it is replaced: what is left does not exceed the cap. -/
theorem text_for_bytes_counted :
    ¬∃ out, stampCost texted.value .full 0 (some 90) [] = some out ∧ Stamped (some 90) out := by
  rintro ⟨out, hout, hstamped⟩
  have hrun : stampCost texted.value .full 0 (some 90) [] =
      some (.obj [(COST, .obj [(BYTES, .num (.nat 86)), ("ms".toList, .num (.nat 0)), ("detail".toList, .str "full".toList),
        ("budget_tokens".toList, .num (.nat 22)), (BUDGET_EXCEEDED, .bool true)])]) := rfl
  cases hrun.symm.trans hout
  exact absurd ((hstamped.exceeded 90 rfl).mp rfl) (by decide)

end Reply

end Cost
end Mcp
end CodeSage
