import Mathlib.Algebra.Order.Ring.Int
import Mathlib.Data.List.Basic
import Mathlib.Tactic.Common

/-!
# CodeSage.Lib.Utf8

Text as a list of characters, addressed by byte offsets of its UTF-8 encoding. Cutting a text at an
offset inside a character, or past its end, fails.

`offset text k` is the offset of the character number `k`; every offset at which a text can be cut is
of this form.
-/

namespace Lib
namespace Utf8

def size (text : List Char) : Nat := (text.map Char.utf8Size).sum

def bytes (text : List Char) : List UInt8 := text.flatMap String.utf8EncodeChar

/-- The text before and after a byte offset. -/
def cut : List Char → Nat → Option (List Char × List Char)
  | text, 0 => some ([], text)
  | [], _ + 1 => none
  | c :: text, pos + 1 =>
    if c.utf8Size ≤ pos + 1 then (cut text (pos + 1 - c.utf8Size)).map fun r => (c :: r.1, r.2)
    else none

/-- `text[pos..]` -/
def sliceFrom (text : List Char) (pos : Nat) : Option (List Char) := (cut text pos).map Prod.snd

/-- `text[start..stop]` -/
def slice (text : List Char) (start stop : Nat) : Option (List Char) :=
  if start ≤ stop then do
    let rest ← sliceFrom text start
    let r ← cut rest (stop - start)
    return r.1
  else none

/-- `is_char_boundary` -/
def isBoundary (text : List Char) (pos : Nat) : Bool := (cut text pos).isSome

/-- The offset of the character number `k`. -/
def offset (text : List Char) (k : Nat) : Nat := size (text.take k)

/-- A byte that does not start a character. -/
def isContinuation (b : UInt8) : Bool := b &&& 0xC0 == 0x80

variable {text : List Char}

@[simp] theorem size_nil : size [] = 0 := rfl

@[simp] theorem size_cons (c : Char) (text : List Char) : size (c :: text) = c.utf8Size + size text := rfl

@[simp] theorem size_append (a b : List Char) : size (a ++ b) = size a + size b := by
  simp [size]

theorem length_le_size (text : List Char) : text.length ≤ size text := by
  induction text with
  | nil => exact Nat.le_refl 0
  | cons c text ih =>
    have := c.utf8Size_pos
    simp only [size_cons, List.length_cons]
    omega

theorem size_eq_zero : size text = 0 ↔ text = [] := by
  constructor
  · intro h
    have := length_le_size text
    exact List.length_eq_zero_iff.mp (by omega)
  · rintro rfl
    rfl

@[simp] theorem bytes_append (a b : List Char) : bytes (a ++ b) = bytes a ++ bytes b := by
  simp [bytes]

theorem length_bytes (text : List Char) : (bytes text).length = size text := by
  induction text with
  | nil => rfl
  | cons c text ih =>
    rw [← List.singleton_append, bytes_append, List.length_append, ih, size_append]
    simp [bytes, size]

section Cut

theorem cut_append (a b : List Char) : cut (a ++ b) (size a) = some (a, b) := by
  induction a with
  | nil => simp [cut]
  | cons c a ih =>
    obtain ⟨n, hn⟩ : ∃ n, size (c :: a) = n + 1 :=
      ⟨size (c :: a) - 1, by have := c.utf8Size_pos; simp only [size_cons]; omega⟩
    have hsize : size a = n + 1 - c.utf8Size := by rw [← hn, size_cons]; omega
    have hle : c.utf8Size ≤ n + 1 := by rw [← hn, size_cons]; omega
    rw [List.cons_append, hn, cut, if_pos hle, ← hsize, ih]
    rfl

theorem cut_some : ∀ {text : List Char} {pos : Nat} {r : List Char × List Char},
    cut text pos = some r → text = r.1 ++ r.2 ∧ size r.1 = pos := by
  intro text
  induction text with
  | nil =>
    intro pos r h
    cases pos with
    | zero =>
      rw [cut] at h
      rw [← Option.some.inj h]
      exact ⟨rfl, rfl⟩
    | succ pos => simp [cut] at h
  | cons c text ih =>
    intro pos r h
    cases pos with
    | zero =>
      rw [cut] at h
      rw [← Option.some.inj h]
      exact ⟨rfl, rfl⟩
    | succ pos =>
      rw [cut] at h
      split at h
      · rename_i hle
        obtain ⟨r', hr', rfl⟩ := Option.map_eq_some_iff.mp h
        obtain ⟨ht, hs⟩ := ih hr'
        refine ⟨by rw [ht]; rfl, ?_⟩
        rw [size_cons, hs]
        omega
      · cases h

theorem sliceFrom_append (a b : List Char) : sliceFrom (a ++ b) (size a) = some b := by
  rw [sliceFrom, cut_append, Option.map_some]

theorem slice_append (a b c : List Char) : slice (a ++ (b ++ c)) (size a) (size a + size b) = some b := by
  rw [slice, if_pos (Nat.le_add_right ..), sliceFrom_append]
  simp only [Option.bind_eq_bind, Option.bind_some, Nat.add_sub_cancel_left, cut_append]
  rfl

theorem isBoundary_append (a b : List Char) : isBoundary (a ++ b) (size a) = true := by
  rw [isBoundary, cut_append, Option.isSome_some]

end Cut

section At

@[simp] theorem offset_zero (text : List Char) : offset text 0 = 0 := rfl

@[simp] theorem offset_length (text : List Char) : offset text text.length = size text := by
  rw [offset, List.take_length]

theorem offset_append (a b : List Char) : offset (a ++ b) a.length = size a := by
  rw [offset, List.take_left']
  rfl

theorem offset_add {i j : Nat} (h : i ≤ j) : offset text j = offset text i + size ((text.take j).drop i) := by
  rw [offset, offset, ← size_append]
  congr 1
  conv_lhs => rw [← List.take_append_drop i (text.take j), List.take_take, Nat.min_eq_left h]

theorem offset_le {i j : Nat} (h : i ≤ j) : offset text i ≤ offset text j := by
  rw [offset_add h]
  exact Nat.le_add_right ..

theorem offset_lt {i j : Nat} (h : i < j) (hj : j ≤ text.length) : offset text i < offset text j := by
  rw [offset_add (Nat.le_of_lt h)]
  have hlen := length_le_size ((text.take j).drop i)
  rw [List.length_drop, List.length_take, Nat.min_eq_left hj] at hlen
  omega

theorem offset_lt_iff {i j : Nat} (hj : j ≤ text.length) :
    offset text i < offset text j ↔ i < j := by
  constructor
  · intro h
    by_contra hle
    have : offset text j ≤ offset text i := offset_le (Nat.le_of_not_lt hle)
    omega
  · exact fun h => offset_lt h hj

theorem offset_max {i j : Nat} : max (offset text i) (offset text j) = offset text (max i j) := by
  rcases Nat.le_total i j with h | h
  · rw [Nat.max_eq_right h, Nat.max_eq_right (offset_le h)]
  · rw [Nat.max_eq_left h, Nat.max_eq_left (offset_le h)]

theorem sliceFrom_offset (k : Nat) : sliceFrom text (offset text k) = some (text.drop k) := by
  have := sliceFrom_append (text.take k) (text.drop k)
  rwa [List.take_append_drop] at this

theorem isBoundary_offset (k : Nat) : isBoundary text (offset text k) = true := by
  have := isBoundary_append (text.take k) (text.drop k)
  rwa [List.take_append_drop] at this

theorem slice_offset {i j : Nat} (h : i ≤ j) :
    slice text (offset text i) (offset text j) = some ((text.take j).drop i) := by
  have hsplit : text = text.take i ++ ((text.take j).drop i ++ text.drop j) := by
    rw [← List.append_assoc]
    conv_rhs => rw [show text.take i = (text.take j).take i by rw [List.take_take, Nat.min_eq_left h]]
    rw [List.take_append_drop, List.take_append_drop]
  have := slice_append (text.take i) ((text.take j).drop i) (text.drop j)
  rw [← hsplit] at this
  rwa [offset_add h]

theorem offset_le_size (k : Nat) : offset text k ≤ size text := by
  have := size_append (text.take k) (text.drop k)
  rw [List.take_append_drop] at this
  rw [offset]
  omega

end At

section Bytes

theorem isContinuation_masked : ∀ n : Fin 256, isContinuation (UInt8.ofNat n &&& 0x3f ||| 0x80) = true ∧
    (n.val ≤ 0x7f → isContinuation (UInt8.ofNat n) = false) ∧ isContinuation (UInt8.ofNat n &&& 0x1f ||| 0xc0) = false ∧
    isContinuation (UInt8.ofNat n &&& 0x0f ||| 0xe0) = false ∧ isContinuation (UInt8.ofNat n &&& 0x07 ||| 0xf0) = false := by
  decide +kernel

theorem isContinuation_low (n : Fin 256) : isContinuation (UInt8.ofNat n &&& 0x3f ||| 0x80) = true :=
  (isContinuation_masked n).1

theorem isContinuation_one (n : Fin 256) (h : n.val ≤ 0x7f) : isContinuation (UInt8.ofNat n) = false :=
  (isContinuation_masked n).2.1 h

theorem isContinuation_two (n : Fin 256) : isContinuation (UInt8.ofNat n &&& 0x1f ||| 0xc0) = false :=
  (isContinuation_masked n).2.2.1

theorem isContinuation_three (n : Fin 256) : isContinuation (UInt8.ofNat n &&& 0x0f ||| 0xe0) = false :=
  (isContinuation_masked n).2.2.2.1

theorem isContinuation_four (n : Fin 256) : isContinuation (UInt8.ofNat n &&& 0x07 ||| 0xf0) = false :=
  (isContinuation_masked n).2.2.2.2

/-- A character is encoded as one byte that starts it and continuation bytes. -/
theorem encode_shape (c : Char) : ∃ first rest, String.utf8EncodeChar c = first :: rest ∧
    isContinuation first = false ∧ ∀ b ∈ rest, isContinuation b = true := by
  have hofNat : ∀ b : UInt8, ∃ n : Fin 256, b = UInt8.ofNat n :=
    fun b => ⟨⟨b.toNat, b.toNat_lt⟩, by simp⟩
  have hcont : ∀ b : UInt8, isContinuation (b &&& 0x3f ||| 0x80) = true := by
    intro b
    obtain ⟨n, rfl⟩ := hofNat b
    exact isContinuation_low n
  rw [String.utf8EncodeChar_eq_utf8EncodeCharFast]
  simp only [String.utf8EncodeCharFast]
  split
  · rename_i h
    refine ⟨_, _, rfl, ?_, by simp⟩
    have hlt : c.val.toNat ≤ 0x7f := h
    have : c.val.toUInt8 = UInt8.ofNat (⟨c.val.toNat, by omega⟩ : Fin 256) := rfl
    rw [this]
    exact isContinuation_one _ hlt
  · split
    · refine ⟨_, _, rfl, ?_, by simp [hcont]⟩
      obtain ⟨n, hn⟩ := hofNat (c.val >>> 6).toUInt8
      rw [hn]
      exact isContinuation_two n
    · split
      · refine ⟨_, _, rfl, ?_, by simp [hcont]⟩
        obtain ⟨n, hn⟩ := hofNat (c.val >>> 12).toUInt8
        rw [hn]
        exact isContinuation_three n
      · refine ⟨_, _, rfl, ?_, by simp [hcont]⟩
        obtain ⟨n, hn⟩ := hofNat (c.val >>> 18).toUInt8
        rw [hn]
        exact isContinuation_four n

/-- The bytes of the character after `a`: the first is no continuation byte, the others are. -/
theorem bytes_char (a : List Char) (c : Char) (b : List Char) {i : Nat} (hi : i < c.utf8Size) :
    ∃ x, (bytes (a ++ c :: b))[size a + i]? = some x ∧ isContinuation x = decide (i ≠ 0) := by
  obtain ⟨first, rest, henc, hfirst, hrest⟩ := encode_shape c
  have hlen : rest.length + 1 = c.utf8Size := by
    rw [← String.length_utf8EncodeChar, henc, List.length_cons]
  have hbytes : bytes (a ++ c :: b) = bytes a ++ (first :: rest ++ bytes b) := by
    rw [bytes_append, ← List.singleton_append, bytes_append, ← henc]
    simp [bytes]
  rw [hbytes, List.getElem?_append_right (by rw [length_bytes]; omega), length_bytes,
    Nat.add_sub_cancel_left, List.getElem?_append_left (by rw [List.length_cons]; omega)]
  cases i with
  | zero => exact ⟨first, rfl, by simp [hfirst]⟩
  | succ i =>
    have hlt : i < rest.length := by omega
    refine ⟨rest[i], by simp [hlt], ?_⟩
    rw [hrest _ (List.getElem_mem hlt)]
    rfl

/-- An ASCII character is its own byte. -/
theorem encode_ascii {c : Char} (h : c.toNat < 0x80) : String.utf8EncodeChar c = [UInt8.ofNat c.toNat] := by
  rw [String.utf8EncodeChar_eq_utf8EncodeCharFast]
  simp only [String.utf8EncodeCharFast]
  have hle : c.val ≤ 0x7f := by
    rw [UInt32.le_iff_toNat_le]
    exact Nat.le_of_lt_succ h
  rw [if_pos hle]
  rfl

/-- Any other character has a continuation byte. -/
theorem encode_not_ascii {c : Char} (h : ¬c.toNat < 0x80) :
    ∃ b ∈ String.utf8EncodeChar c, isContinuation b = true := by
  obtain ⟨first, rest, henc, -, hrest⟩ := encode_shape c
  have hlen : rest.length + 1 = c.utf8Size := by
    rw [← String.length_utf8EncodeChar, henc, List.length_cons]
  have hsize : c.utf8Size ≠ 1 := by
    intro hone
    have := Char.utf8Size_eq_one_iff.mp hone
    rw [UInt32.le_iff_toNat_le] at this
    exact h (Nat.lt_succ_of_le this)
  obtain ⟨b, hb⟩ : ∃ b, b ∈ rest := by
    refine List.exists_mem_of_length_pos ?_
    have := c.utf8Size_pos
    omega
  exact ⟨b, by rw [henc]; exact List.mem_cons_of_mem _ hb, hrest b hb⟩

/-- An ASCII byte is only in the code of its own character. -/
theorem mem_encode_ascii {c : Char} {b : UInt8} (hb : b.toNat < 0x80) (h : b ∈ String.utf8EncodeChar c) : b.toNat = c.toNat := by
  by_cases hc : c.toNat < 0x80
  · rw [encode_ascii hc, List.mem_singleton] at h
    rw [h, UInt8.toNat_ofNat']
    exact Nat.mod_eq_of_lt (by omega)
  · have hhigh : ∀ x k : UInt8, 0x80 ≤ k.toNat → 0x80 ≤ (x ||| k).toNat := by
      intro x k hk
      rw [UInt8.toNat_or]
      exact Nat.le_trans hk Nat.right_le_or
    have hlarge : ¬c.val ≤ 0x7f := by
      rw [UInt32.le_iff_toNat_le]
      exact fun hle => hc (Nat.lt_succ_of_le hle)
    rw [String.utf8EncodeChar_eq_utf8EncodeCharFast] at h
    simp only [String.utf8EncodeCharFast] at h
    rw [if_neg hlarge] at h
    have hall : ∀ x ∈ [(0x80 : UInt8), 0xc0, 0xe0, 0xf0], 0x80 ≤ x.toNat := by
      simp only [List.forall_mem_cons]
      exact ⟨by decide, by decide, by decide, by decide, nofun⟩
    have hbyte : 0x80 ≤ b.toNat := by
      split at h
      · simp only [List.mem_cons, List.not_mem_nil, or_false] at h
        rcases h with rfl | rfl <;> exact hhigh _ _ (hall _ (by simp))
      · split at h
        · simp only [List.mem_cons, List.not_mem_nil, or_false] at h
          rcases h with rfl | rfl | rfl <;> exact hhigh _ _ (hall _ (by simp))
        · simp only [List.mem_cons, List.not_mem_nil, or_false] at h
          rcases h with rfl | rfl | rfl | rfl <;> exact hhigh _ _ (hall _ (by simp))
    omega

/-- A test of every byte that no continuation byte passes is a test of every character. -/
theorem forall_bytes_iff {p : UInt8 → Prop} (hp : ∀ b, isContinuation b = true → ¬p b) (text : List Char) :
    (∀ b ∈ bytes text, p b) ↔ ∀ c ∈ text, c.toNat < 0x80 ∧ p (UInt8.ofNat c.toNat) := by
  simp only [bytes, List.mem_flatMap]
  constructor
  · intro h c hc
    by_cases hlt : c.toNat < 0x80
    · exact ⟨hlt, h _ ⟨c, hc, by rw [encode_ascii hlt]; exact List.mem_singleton_self _⟩⟩
    · obtain ⟨b, hb, hcont⟩ := encode_not_ascii hlt
      exact absurd (h b ⟨c, hc, hb⟩) (hp b hcont)
  · rintro h b ⟨c, hc, hb⟩
    rw [encode_ascii (h c hc).1, List.mem_singleton] at hb
    rw [hb]
    exact (h c hc).2

theorem size_ascii {text : List Char} (h : ∀ c ∈ text, c.toNat < 0x80) : size text = text.length := by
  induction text with
  | nil => rfl
  | cons c text ih =>
    have hone : c.utf8Size = 1 := by
      rw [← String.length_utf8EncodeChar, encode_ascii (h c List.mem_cons_self)]
      rfl
    rw [size_cons, hone, ih fun c hc => h c (List.mem_cons_of_mem _ hc), List.length_cons, Nat.add_comm]

end Bytes

end Utf8

section Order

/-- The order of texts by their characters, which is the order of their bytes. -/
def textLt (a b : String) : Prop := @LT.lt String String.instLT a b

instance : DecidableRel textLt := fun a b => String.decidableLT a b

theorem textLt_asymm {a b : String} (h : textLt a b) : ¬textLt b a := String.lt_asymm h

theorem textLt_ne {a b : String} (h : textLt a b) : a ≠ b := String.ne_of_lt h

theorem textLt_of_not {a b : String} (h : ¬textLt a b) (hne : a ≠ b) : textLt b a := by
  rcases String.le_total a b with hle | hle
  · exact absurd (String.le_antisymm hle (String.not_lt.mp h)) hne
  · exact String.not_le.mp fun hge => hne (String.le_antisymm hge hle)

end Order

end Lib
