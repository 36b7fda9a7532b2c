import Mathlib.Data.List.AList
import CodeSage.Lib.Utf8
import CodeSage.Parser.Fingerprint

/-!
# CodeSage.Graph.Similar

Near-clone search (`crates/graph/src/similar.rs`): the stored fingerprints of a language are filed under
their band keys, a seed is compared with the rows that share a key with it, and the best score of each
`(file_path, line_start)` is kept.

The candidates are a hash set, so they are visited in any order; `Search` follows every one of them.
`FileCategory::classify` is the parameter `isTest`: nothing depends on which files are tests.
-/

namespace CodeSage
namespace Graph
namespace Similar

open Lib CodeSage.Parser

structure StoredFingerprint where
  filePath : String
  language : String
  name : String
  kind : String
  lineStart : Nat
  lineEnd : Nat
  fp : List UInt64
  deriving DecidableEq, Repr

structure SimilarSymbol where
  name : String
  filePath : String
  lineStart : Nat
  lineEnd : Nat
  kind : String
  jaccard : ℚ
  deriving DecidableEq, Repr

/-- `as_sig` -/
def asSig (fp : List UInt64) : Option Fingerprint :=
  if h : fp.length = MINHASH_K then some ⟨fp.toArray, by simpa using h⟩ else none

structure LanguageFingerprintIndex where
  rows : List StoredFingerprint
  buckets : Buckets UInt64

/-- The keys under which `build_language_index` files a row; none for a test or another signature size. -/
def filedKeys (isTest : String → Bool) (f : StoredFingerprint) : List UInt64 :=
  if isTest f.filePath then []
  else
    match asSig f.fp with
    | some sig => bandKeys sig
    | none => []

/-- `build_language_index` -/
def buildLanguageIndex (isTest : String → Bool) (rows : List StoredFingerprint) : LanguageFingerprintIndex :=
  ⟨rows, fileRows (filedKeys isTest) rows⟩

/-- The rows that share a bucket with the seed. -/
def candidates (index : LanguageFingerprintIndex) (tsig : Fingerprint) : List Nat :=
  (bandKeys tsig).flatMap index.buckets

/-- The best row so far of each `(file_path, line_start)`. -/
abbrev Best := AList fun _ : String × Nat => SimilarSymbol

def position (c : StoredFingerprint) : String × Nat := (c.filePath, c.lineStart)

/-- `best.entry(..).or_insert_with(..)`, then the larger score. -/
def keep (best : Best) (c : StoredFingerprint) (score : ℚ) : Best :=
  let entry := (best.lookup (position c)).getD ⟨c.name, c.filePath, c.lineStart, c.lineEnd, c.kind, 0⟩
  if entry.jaccard < score then best.insert (position c) { entry with jaccard := score }
  else best.insert (position c) entry

/-- One candidate of one seed; `none` is a panic of `index.rows[ci]`. -/
def compare (index : LanguageFingerprintIndex) (seed : StoredFingerprint) (tsig : Fingerprint)
    (minJaccard : ℚ) (best : Best) (ci : Nat) : Option Best := do
  let c ← index.rows[ci]?
  if c.filePath = seed.filePath ∧ c.lineStart = seed.lineStart then return best
  match asSig c.fp with
  | none => return best
  | some csig =>
    let score := jaccard tsig csig
    if score < minJaccard then return best
    return keep best c score

/-- A hash set is visited once per member, in any order. -/
def Visits (order : List Nat) (members : List Nat) : Prop := order.Nodup ∧ ∀ i, i ∈ order ↔ i ∈ members

/-- A finite `f32` is the rational number it stands for; `none` is a NaN or an infinity. -/
def threshold : Option ℚ → ℚ
  | some minJaccard => max 0 (min minJaccard 1)
  | none => 14260634 / 16777216

section

variable (isTest : String → Bool) (fingerprintsForLanguage : String → List StoredFingerprint)

/-- The loop over the seeds. -/
inductive Search (minJaccard : ℚ) : Best → List StoredFingerprint → Option Best → Prop where
  | done {best} : Search minJaccard best [] (some best)
  | skip {best seed seeds r} : asSig seed.fp = none →
      Search minJaccard best seeds r → Search minJaccard best (seed :: seeds) r
  | seed {best seed seeds tsig order best' r} : asSig seed.fp = some tsig →
      Visits order (candidates (buildLanguageIndex isTest (fingerprintsForLanguage seed.language)) tsig) →
      order.foldlM (compare (buildLanguageIndex isTest (fingerprintsForLanguage seed.language)) seed tsig minJaccard)
        best = some best' →
      Search minJaccard best' seeds r → Search minJaccard best (seed :: seeds) r
  | panic {best seed seeds tsig order} : asSig seed.fp = some tsig →
      Visits order (candidates (buildLanguageIndex isTest (fingerprintsForLanguage seed.language)) tsig) →
      order.foldlM (compare (buildLanguageIndex isTest (fingerprintsForLanguage seed.language)) seed tsig minJaccard)
        best = none →
      Search minJaccard best (seed :: seeds) none

end

/-- The order of the answer: score down, then path, then line. -/
def before (a b : SimilarSymbol) : Bool :=
  if a.jaccard = b.jaccard then
    if a.filePath = b.filePath then decide (a.lineStart ≤ b.lineStart) else decide (textLt a.filePath b.filePath)
  else decide (b.jaccard < a.jaccard)

/-- The rows before truncation. -/
def sortedRows (best : Best) : List SimilarSymbol := (best.entries.map Sigma.snd).mergeSort before

def textLe (a b : String) : Bool := decide (a = b) || decide (textLt a b)

/-- `(&a.file_path, a.line_start, &a.name).cmp(..)` -/
def seedLe (a b : StoredFingerprint) : Bool :=
  if a.filePath = b.filePath then
    if a.lineStart = b.lineStart then textLe a.name b.name else decide (a.lineStart ≤ b.lineStart)
  else decide (textLt a.filePath b.filePath)

def sameSeed (a b : StoredFingerprint) : Prop :=
  a.filePath = b.filePath ∧ a.lineStart = b.lineStart ∧ a.name = b.name

instance : DecidableRel sameSeed := fun _ _ => inferInstanceAs (Decidable (_ ∧ _ ∧ _))

/-- The names looked up: those of the matched symbols, or the raw spelling when nothing matched. -/
def names (matched : List String) (trimmed : String) : List String :=
  match (matched.mergeSort textLe).destutter (· ≠ ·) with
  | [] => [trimmed]
  | ns => ns

/-- `targets` of `find_similar_with_seeds`. -/
def targets (fingerprintsNamed : String → List StoredFingerprint) (matched : List String) (trimmed : String) :
    List StoredFingerprint :=
  ((((names matched trimmed).flatMap fingerprintsNamed).filter fun seed => (asSig seed.fp).isSome).mergeSort
    seedLe).destutter fun a b => ¬sameSeed a b

/-- The stored fingerprints as a call reads them. -/
structure FingerprintIndex where
  isTest : String → Bool
  fingerprintsForLanguage : String → List StoredFingerprint
  fingerprintsNamed : String → List StoredFingerprint

/-- `find_similar_with_seeds` may return `results`: the candidates and then the values of `best` come in
some order. -/
def Returns (db : FingerprintIndex) (matched : List String) (trimmed : String) (minJaccard : Option ℚ)
    (limit : Nat) (results : List SimilarSymbol) : Prop :=
  ∃ (best : Best) (values : List SimilarSymbol), Search db.isTest db.fingerprintsForLanguage (threshold minJaccard) ∅
      (targets db.fingerprintsNamed matched trimmed) (some best) ∧
    values.Perm (best.entries.map Sigma.snd) ∧ results = (values.mergeSort before).take limit

end Similar
end Graph
end CodeSage
