import Mathlib.Algebra.Order.Ring.Int
import Mathlib.Data.List.DropRight
import Mathlib.Tactic.Common

/-!
# CodeSage.Lib.Text

Texts as lists of characters: white space, and numbers as the standard library prints and parses them.
-/

namespace Lib

abbrev Text := List Char

instance : LawfulBEq Text := inferInstanceAs (LawfulBEq (List Char))

/-- `char::is_whitespace`: the property `White_Space` -/
def isWhitespace (c : Char) : Bool :=
  (0x09 ≤ c.toNat && c.toNat ≤ 0x0D) || c.toNat = 0x20 || c.toNat = 0x85 || c.toNat = 0xA0
    || c.toNat = 0x1680 || (0x2000 ≤ c.toNat && c.toNat ≤ 0x200A) || c.toNat = 0x2028 || c.toNat = 0x2029
    || c.toNat = 0x202F || c.toNat = 0x205F || c.toNat = 0x3000

/-- `str::trim` -/
def trim (s : Text) : Text := (s.dropWhile isWhitespace).rdropWhile isWhitespace

/-- The digits of a number, read from the left; `none` for no digit or another character. -/
def parseDigits (text : Text) : Option Nat :=
  if !text.isEmpty && text.all Char.isDigit then some (Nat.ofDigitChars 10 text 0) else none

/-- A number with an optional sign, in a signed type whose least value is `-bound`. -/
def parseSigned (bound : Nat) (text : Text) : Option Int :=
  match text with
  | '-' :: digits => (parseDigits digits).bind fun n => if n ≤ bound then some (-(n : Int)) else none
  | '+' :: digits => (parseDigits digits).bind fun n => if n < bound then some (n : Int) else none
  | digits => (parseDigits digits).bind fun n => if n < bound then some (n : Int) else none

/-- `str::parse::<i64>` -/
def parseI64 (text : Text) : Option Int := parseSigned (2 ^ 63) text

/-- `str::parse::<i32>` -/
def parseI32 (text : Text) : Option Int := parseSigned (2 ^ 31) text

/-- `str::parse::<u32>` -/
def parseU32 (text : Text) : Option UInt32 :=
  match text with
  | '+' :: digits => (parseDigits digits).bind fun n => if n < 2 ^ 32 then some n.toUInt32 else none
  | digits => (parseDigits digits).bind fun n => if n < 2 ^ 32 then some n.toUInt32 else none

/-- A decimal number. -/
def decimal (n : Nat) : Text := Nat.toDigits 10 n

def EndsInWhitespace (s : Text) : Prop := ∃ c, s.getLast? = some c ∧ isWhitespace c = true

theorem endsInWhitespace_append {s t : Text} (ht : t ≠ []) :
    EndsInWhitespace (s ++ t) ↔ EndsInWhitespace t := by
  rw [EndsInWhitespace, List.getLast?_append_of_ne_nil s ht, EndsInWhitespace]

theorem trim_eq_self {s : Text} (hfirst : ∀ c, s.head? = some c → isWhitespace c = false)
    (hlast : ¬EndsInWhitespace s) : trim s = s := by
  have hdrop : s.dropWhile isWhitespace = s := by
    cases s with
    | nil => rfl
    | cons c s => exact List.dropWhile_cons_of_neg (by simp [hfirst c rfl])
  rw [trim, hdrop, List.rdropWhile_eq_self_iff]
  intro hne hspace
  exact hlast ⟨s.getLast hne, List.getLast?_eq_getLast_of_ne_nil hne, hspace⟩

theorem isDigit_decimal {n : Nat} {d : Char} (h : d ∈ decimal n) : d.isDigit = true :=
  Nat.isDigit_of_mem_toDigits (by decide) (by decide) h

theorem parseDigits_decimal (n : Nat) : parseDigits (decimal n) = some n := by
  have hdigits : (!(decimal n).isEmpty && (decimal n).all Char.isDigit) = true := by
    have hne : decimal n ≠ [] := Nat.toDigits_ne_nil
    simp only [Bool.and_eq_true, Bool.not_eq_true', List.isEmpty_eq_false_iff, List.all_eq_true]
    exact ⟨hne, fun d hd => isDigit_decimal hd⟩
  rw [parseDigits, if_pos hdigits]
  exact congrArg some Nat.ofDigitChars_ten_toDigits

/-- A decimal number starts with a digit. -/
theorem decimal_eq_cons (n : Nat) : ∃ d ds, decimal n = d :: ds ∧ d ≠ '-' ∧ d ≠ '+' := by
  cases h : decimal n with
  | nil => exact absurd h Nat.toDigits_ne_nil
  | cons d ds =>
    have hd : d.isDigit = true := isDigit_decimal (h ▸ List.mem_cons_self)
    refine ⟨d, ds, rfl, ?_, ?_⟩
    · rintro rfl
      exact absurd hd (by decide)
    · rintro rfl
      exact absurd hd (by decide)

theorem parseU32_decimal (n : UInt32) : parseU32 (decimal n.toNat) = some n := by
  obtain ⟨d, ds, hd, -, hplus⟩ := decimal_eq_cons n.toNat
  have hparse : parseU32 (decimal n.toNat) =
      (parseDigits (decimal n.toNat)).bind fun n => if n < 2 ^ 32 then some n.toUInt32 else none := by
    rw [hd, parseU32]
    rintro digits ⟨⟩
    exact hplus rfl
  rw [hparse, parseDigits_decimal, Option.bind_some, if_pos n.toNat_lt]
  simp

theorem parseSigned_decimal {bound n : Nat} (h : n < bound) : parseSigned bound (decimal n) = some (n : Int) := by
  obtain ⟨d, ds, hd, hminus, hplus⟩ := decimal_eq_cons n
  have hparse : parseSigned bound (decimal n) =
      (parseDigits (decimal n)).bind fun n => if n < bound then some (n : Int) else none := by
    rw [hd, parseSigned]
    · rintro digits ⟨⟩
      exact hminus rfl
    · rintro digits ⟨⟩
      exact hplus rfl
  rw [hparse, parseDigits_decimal, Option.bind_some, if_pos h]

theorem isWhitespace_of_isDigit {c : Char} (h : c.isDigit = true) : isWhitespace c = false := by
  rw [Char.isDigit, Bool.and_eq_true, decide_eq_true_eq, decide_eq_true_eq, ge_iff_le, UInt32.le_iff_toNat_le,
    UInt32.le_iff_toNat_le] at h
  have hlow : 48 ≤ c.toNat := h.1
  have hhigh : c.toNat ≤ 57 := h.2
  simp only [isWhitespace, Bool.or_eq_false_iff, Bool.and_eq_false_iff, decide_eq_false_iff_not]
  omega

/-- A number on a line of its own, trimmed. -/
theorem trim_decimal (n : Nat) : trim (decimal n ++ ['\n']) = decimal n := by
  have hne : decimal n ≠ [] := Nat.toDigits_ne_nil
  have hfirst : (decimal n ++ ['\n']).dropWhile isWhitespace = decimal n ++ ['\n'] := by
    cases h : decimal n with
    | nil => exact absurd h hne
    | cons d ds =>
      have hd : d.isDigit = true := isDigit_decimal (h ▸ List.mem_cons_self)
      exact List.dropWhile_cons_of_neg (by simp [isWhitespace_of_isDigit hd])
  rw [trim, hfirst, List.rdropWhile_concat_pos _ _ _ (by decide), List.rdropWhile_eq_self_iff]
  intro hne hspace
  rw [isWhitespace_of_isDigit (isDigit_decimal (List.getLast_mem hne))] at hspace
  cases hspace

end Lib
