import Mathlib.Data.Rat.Cast.Order
import Mathlib.Tactic.Linarith
import CodeSage.Lib.Banding

/-!
# CodeSage.Parser.Fingerprint

MinHash signatures and their band keys (`crates/parser/src/fingerprint.rs`). A similarity is `agree / 64`
with `agree ≤ 64`, which a 32-bit float holds exactly, so it is a rational number here.
-/

namespace CodeSage
namespace Parser

open Lib

def MINHASH_K : Nat := 64

/-- `MINHASH_K = LSH_BANDS * LSH_ROWS` -/
def LSH_BANDS : Nat := 16

def LSH_ROWS : Nat := MINHASH_K / LSH_BANDS

theorem minhash_bands : LSH_BANDS * LSH_ROWS = MINHASH_K := rfl

abbrev Fingerprint := Vector UInt64 MINHASH_K

def splitmix64 (x : UInt64) : UInt64 :=
  let x := x + 0x9e3779b97f4a7c15
  let z := x
  let z := (z ^^^ (z >>> 30)) * 0xbf58476d1ce4e5b9
  let z := (z ^^^ (z >>> 27)) * 0x94d049bb133111eb
  z ^^^ (z >>> 31)

/-- The number of positions at which two signatures agree. -/
def agree (a b : Fingerprint) : Nat := (List.finRange MINHASH_K).countP fun i => a.get i == b.get i

def jaccard (a b : Fingerprint) : ℚ := agree a b / MINHASH_K

/-- FNV-1a over the rows of band `b`, with the band's number mixed in. -/
def bandKey (fp : Fingerprint) (b : Fin LSH_BANDS) : UInt64 :=
  let h := (List.finRange LSH_ROWS).foldl
    (fun h r => (h ^^^ fp.get (Fin.cast minhash_bands (bandPos b r))) * 0x100000001b3) 0xcbf29ce484222325
  h ^^^ splitmix64 b.val.toUInt64

/-- `band_keys` -/
def bandKeys (fp : Fingerprint) : List UInt64 := (List.finRange LSH_BANDS).map (bandKey fp)

theorem bandKey_congr {a c : Fingerprint} {b : Fin LSH_BANDS}
    (h : ∀ r : Fin LSH_ROWS, a.get (Fin.cast minhash_bands (bandPos b r)) = c.get (Fin.cast minhash_bands (bandPos b r))) :
    bandKey a b = bandKey c b := by
  simp only [bandKey, h]

/-- Signatures that disagree on fewer positions than there are bands share a band key. -/
theorem exists_shared_bandKey {a c : Fingerprint} (h : MINHASH_K - LSH_BANDS < agree a c) :
    ∃ key, key ∈ bandKeys a ∧ key ∈ bandKeys c := by
  have hsum := countP_not_add (fun i => a.get i == c.get i) (List.finRange MINHASH_K)
  rw [List.length_finRange] at hsum
  have hfew : (List.finRange (LSH_BANDS * LSH_ROWS)).countP (fun i => !(a.get i == c.get i)) < LSH_BANDS := by
    have hagree : agree a c = (List.finRange MINHASH_K).countP fun i => a.get i == c.get i := rfl
    have hle : LSH_BANDS ≤ MINHASH_K := by decide
    change (List.finRange MINHASH_K).countP (fun i => !(a.get i == c.get i)) < LSH_BANDS
    omega
  obtain ⟨b, hb⟩ := exists_band (fun i : Fin (LSH_BANDS * LSH_ROWS) => a.get i == c.get i) hfew
  refine ⟨bandKey a b, List.mem_map_of_mem (List.mem_finRange b), ?_⟩
  rw [bandKey_congr fun r => eq_of_beq (hb r)]
  exact List.mem_map_of_mem (List.mem_finRange b)

theorem agree_of_jaccard {a c : Fingerprint} {q : ℚ} (hq : 48 / 64 < q) (h : q ≤ jaccard a c) : 48 < agree a c := by
  have hlt : (48 / 64 : ℚ) < agree a c / 64 := lt_of_lt_of_le hq h
  have : (48 : ℚ) < agree a c := by linarith
  exact_mod_cast this

end Parser
end CodeSage
