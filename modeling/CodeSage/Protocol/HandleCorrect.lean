import Mathlib.Data.List.DropRight
import Mathlib.Logic.Function.Iterate
import CodeSage.Protocol.Handle

/-!
# CodeSage.Protocol.HandleCorrect

Reading back the text of a handle. `parse_toText`: a valid handle is read back as it is, a directory
apart whose path ends in `/`, which loses that `/` (`parse_toText_slash`). Every handle that the parser
or a constructor returns is valid (`parse_valid`), so re-emitting it can only shorten the trailing
slashes of a directory.
-/

namespace CodeSage
namespace Protocol
namespace Handle

open Lib

section Components

@[simp] theorem escape_nil : escape [] = [] := rfl

@[simp] theorem escape_cons (c : Char) (s : List Char) : escape (c :: s) = escapeChar c ++ escape s := rfl

theorem escape_append (s t : List Char) : escape (s ++ t) = escape s ++ escape t := by
  simp [escape]

theorem escapeChar_of_ne {c : Char} (h : c ≠ '%' ∧ c ≠ '#' ∧ c ≠ '@') : escapeChar c = [c] := by
  unfold escapeChar
  split <;> simp_all

/-- The characters a component writes by a `%` sequence. -/
theorem escapeChar_cases (c : Char) :
    (c = '%' ∨ c = '#' ∨ c = '@') ∨ escapeChar c = [c] ∧ c ≠ '%' ∧ c ≠ '#' ∧ c ≠ '@' := by
  by_cases hc : c = '%' ∨ c = '#' ∨ c = '@'
  · exact Or.inl hc
  · simp only [not_or] at hc
    exact Or.inr ⟨escapeChar_of_ne hc, hc⟩

theorem not_mem_escape {sep : Char} (hsep : sep = '#' ∨ sep = '@') (s : List Char) : sep ∉ escape s := by
  intro h
  obtain ⟨c, -, hc⟩ := List.mem_flatMap.mp h
  rcases escapeChar_cases c with (rfl | rfl | rfl) | ⟨heq, hne⟩
  · rcases hsep with rfl | rfl <;> simp [escapeChar] at hc
  · rcases hsep with rfl | rfl <;> simp [escapeChar] at hc
  · rcases hsep with rfl | rfl <;> simp [escapeChar] at hc
  · rw [heq, List.mem_singleton] at hc
    rcases hsep with rfl | rfl
    · exact hne.2.1 hc.symm
    · exact hne.2.2 hc.symm

theorem unescape_cons {c : Char} (h : c ≠ '%') (rest : List Char) : unescape (c :: rest) = c :: unescape rest := by
  rw [unescape]
  all_goals simp [h]

@[simp] theorem unescape_escape (s : List Char) : unescape (escape s) = s := by
  induction s with
  | nil => rfl
  | cons c s ih =>
    rw [escape_cons]
    rcases escapeChar_cases c with (rfl | rfl | rfl) | ⟨heq, hne⟩
    · simp [escapeChar, unescape, ih]
    · simp [escapeChar, unescape, ih]
    · simp [escapeChar, unescape, ih]
    · rw [heq, List.singleton_append, unescape_cons hne.1, ih]

@[simp] theorem escape_eq_nil {s : List Char} : escape s = [] ↔ s = [] := by
  constructor
  · intro h
    rw [← unescape_escape s, h]
    rfl
  · rintro rfl
    rfl

/-- Only a `/` is written as a `/`. -/
theorem getLast?_escape (s : List Char) : (escape s).getLast? = some '/' ↔ s.getLast? = some '/' := by
  rcases List.eq_nil_or_concat' s with rfl | ⟨init, c, rfl⟩
  · simp
  · rw [escape_append, escape_cons, escape_nil, List.append_nil]
    rcases escapeChar_cases c with (rfl | rfl | rfl) | ⟨heq, -⟩
    · simp [escapeChar]
    · simp [escapeChar]
    · simp [escapeChar]
    · simp [heq]

end Components

section Numbers

theorem number_ne_nil (n : UInt32) : number n ≠ [] := Nat.toDigits_ne_nil

theorem isDigit_of_mem_number {n : UInt32} {c : Char} (h : c ∈ number n) : c.isDigit = true :=
  Nat.isDigit_of_mem_toDigits (by decide) (by decide) h

theorem not_mem_number {sep : Char} (h : sep.isDigit = false) (n : UInt32) : sep ∉ number n := by
  intro hmem
  rw [isDigit_of_mem_number hmem] at h
  cases h

@[simp] theorem parseLine_number (n : UInt32) : parseLine (number n) = some n := by
  have hdigits : (!(number n).isEmpty && (number n).all Char.isDigit) = true := by
    simp only [Bool.and_eq_true, Bool.not_eq_true', List.isEmpty_eq_false_iff, List.all_eq_true]
    exact ⟨number_ne_nil n, fun c hc => isDigit_of_mem_number hc⟩
  have hvalue : Nat.ofDigitChars 10 (number n) 0 = n.toNat := Nat.ofDigitChars_ten_toDigits
  rw [parseLine, if_pos hdigits]
  simp only [hvalue]
  rw [if_pos n.toNat_lt, UInt32.ofNat_toNat]

end Numbers

section Features

/-- The digits of a feature id. -/
def HEX : List Char := ['0', '1', '2', '3', '4', '5', '6', '7', '8', '9', 'a', 'b', 'c', 'd', 'e', 'f']

theorem isLowerHex_continuation (b : UInt8) (h : Utf8.isContinuation b = true) : ¬isLowerHex b = true := by
  have key : ∀ n : Fin 256, Utf8.isContinuation (UInt8.ofNat n) = true → ¬isLowerHex (UInt8.ofNat n) = true := by
    decide +kernel
  have := key ⟨b.toNat, b.toNat_lt⟩
  simp only [UInt8.ofNat_toNat] at this
  exact this h

theorem isLowerHex_iff (c : Char) : (c.toNat < 0x80 ∧ isLowerHex (UInt8.ofNat c.toNat) = true) ↔ c ∈ HEX := by
  constructor
  · rintro ⟨hlt, hhex⟩
    have key : ∀ n : Fin 0x80, isLowerHex (UInt8.ofNat n) = true → Char.ofNat n ∈ HEX := by decide
    have := key ⟨c.toNat, hlt⟩ hhex
    rwa [Char.ofNat_toNat] at this
  · intro h
    have key : (HEX.all fun c => decide (c.toNat < 0x80 ∧ isLowerHex (UInt8.ofNat c.toNat) = true)) = true := by
      decide
    exact of_decide_eq_true (List.all_eq_true.mp key c h)

theorem parseFeature_eq_some {input hex : List Char} {h : Handle} :
    parseFeature input hex = some h ↔
      h = .feature input ∧ hex.length = FEATURE_HEX_LEN ∧ ∀ c ∈ hex, c ∈ HEX := by
  have hall : (Utf8.bytes hex).all isLowerHex = true ↔ ∀ c ∈ hex, c ∈ HEX := by
    rw [List.all_eq_true, Utf8.forall_bytes_iff isLowerHex_continuation]
    simp only [isLowerHex_iff]
  have hlen : (∀ c ∈ hex, c ∈ HEX) → (Utf8.bytes hex).length = hex.length := by
    intro h
    rw [Utf8.length_bytes, Utf8.size_ascii fun c hc => ((isLowerHex_iff c).mpr (h c hc)).1]
  rw [parseFeature]
  split
  · rename_i hcond
    rw [Bool.and_eq_true, beq_iff_eq, hall] at hcond
    rw [Option.some_inj, eq_comm, ← hlen hcond.2]
    exact ⟨fun h => ⟨h, hcond⟩, fun h => h.1⟩
  · rename_i hcond
    rw [Bool.and_eq_true, beq_iff_eq, hall] at hcond
    constructor
    · intro h
      cases h
    · rintro ⟨-, h16, hhex⟩
      exact absurd ⟨(hlen hhex).trans h16, hhex⟩ hcond

end Features

section Paths

/-- The trailing slash of a path carries no check of its own. -/
theorem validPath_of_slash {path : List Char} (h : validPath (path ++ ['/']) = true) : validPath path = true := by
  have hsplit : (path ++ ['/']).splitOn '/' = path.splitOn '/' ++ [[]] := List.splitOn_append_cons_self path []
  simp only [validPath, hsplit, List.any_append, List.head?_append, Bool.and_eq_true, Bool.not_eq_true',
    Bool.or_eq_false_iff, List.contains_append] at h ⊢
  obtain ⟨⟨⟨⟨-, hhead⟩, hback⟩, hcontrol⟩, hdots⟩ := h
  refine ⟨⟨⟨⟨?_, ?_⟩, hback.1⟩, hcontrol.1⟩, hdots.1⟩
  · cases path with
    | nil => simp at hhead
    | cons c path => rfl
  · cases path with
    | nil => simp at hhead
    | cons c path => simpa using hhead

end Paths

/-- What the parser has checked of a handle it returns. -/
def Valid : Handle → Prop
  | .symbol path qualified _ => validPath path = true ∧ qualified ≠ []
  | .file path => validPath path = true
  | .dir path => validPath path = true
  | .chunk path start stop => validPath path = true ∧ start ≤ stop
  | .feature id => ∃ hex, id = FEATURE_PREFIX ++ hex ∧ hex.length = FEATURE_HEX_LEN ∧ ∀ c ∈ hex, c ∈ HEX

/-- A directory whose path ends in `/`. -/
def TrailingSlash : Handle → Prop
  | .dir path => path.getLast? = some '/'
  | _ => False

section Dispatch

theorem parse_sym (rest : List Char) : parse (SYM ++ rest) = parseSymbol rest := by
  simp [parse, List.dropPrefix?, FEATURE_PREFIX, SYM]

theorem parse_file (rest : List Char) : parse (FILE ++ rest) = parseFile rest := by
  simp [parse, List.dropPrefix?, FEATURE_PREFIX, SYM, FILE]

theorem parse_dir (rest : List Char) : parse (DIR ++ rest) = parseDir rest := by
  simp [parse, List.dropPrefix?, FEATURE_PREFIX, SYM, FILE, DIR]

theorem parse_chunk (rest : List Char) : parse (CHUNK ++ rest) = parseChunk rest := by
  simp [parse, List.dropPrefix?, FEATURE_PREFIX, SYM, FILE, DIR, CHUNK]

theorem parse_feature (hex : List Char) : parse (FEATURE_PREFIX ++ hex) = parseFeature (FEATURE_PREFIX ++ hex) hex := by
  simp [parse, List.dropPrefix?, FEATURE_PREFIX]

theorem dropPrefix?_some {input pre rest : List Char} (h : input.dropPrefix? pre = some rest) : input = pre ++ rest := by
  obtain ⟨p, rfl, hp⟩ := List.dropPrefix?_eq_some_iff.mp h
  rw [eq_of_beq hp]

/-- The parser follows one prefix. -/
theorem parse_cases {input : List Char} {h : Handle} (hp : parse input = some h) :
    (∃ hex, input = FEATURE_PREFIX ++ hex ∧ parseFeature input hex = some h) ∨
    (∃ rest, input = SYM ++ rest ∧ parseSymbol rest = some h) ∨
    (∃ rest, input = FILE ++ rest ∧ parseFile rest = some h) ∨
    (∃ rest, input = DIR ++ rest ∧ parseDir rest = some h) ∨
    (∃ rest, input = CHUNK ++ rest ∧ parseChunk rest = some h) := by
  unfold parse at hp
  split at hp
  · rename_i hex hdrop
    exact .inl ⟨hex, dropPrefix?_some hdrop, hp⟩
  · split at hp
    · rename_i rest hdrop
      exact .inr (.inl ⟨rest, dropPrefix?_some hdrop, hp⟩)
    · split at hp
      · rename_i rest hdrop
        exact .inr (.inr (.inl ⟨rest, dropPrefix?_some hdrop, hp⟩))
      · split at hp
        · rename_i rest hdrop
          exact .inr (.inr (.inr (.inl ⟨rest, dropPrefix?_some hdrop, hp⟩)))
        · split at hp
          · rename_i rest hdrop
            exact .inr (.inr (.inr (.inr ⟨rest, dropPrefix?_some hdrop, hp⟩)))
          · cases hp

end Dispatch

section Emitted

theorem parseTail_text (qualified : List Char) (line : Option UInt32) :
    parseTail (escape qualified ++ lineSuffix line) = some (escape qualified, line) := by
  cases line with
  | none => rw [lineSuffix, List.append_nil, parseTail, rsplitOnce_eq_none (not_mem_escape (.inr rfl) qualified)]
  | some line =>
    rw [lineSuffix, parseTail, rsplitOnce_append _ (not_mem_number rfl line)]
    simp

theorem parse_symbol_text {path qualified : List Char} (hpath : validPath path = true) (hq : qualified ≠ [])
    (line : Option UInt32) : parse (toText (.symbol path qualified line)) = some (.symbol path qualified line) := by
  have hat : (escape qualified).contains '@' = false := by
    simpa using not_mem_escape (.inr rfl) qualified
  rw [toText, parse_sym, parseSymbol, splitOnce_append (not_mem_escape (.inl rfl) path)]
  simp only [Option.bind_eq_bind, Option.bind_some, parseTail_text, hat]
  simp [hpath, hq]

theorem parse_chunk_text {path : List Char} {start stop : UInt32} (hpath : validPath path = true)
    (hle : start ≤ stop) : parse (toText (.chunk path start stop)) = some (.chunk path start stop) := by
  have hrange : ':' ∉ number start ++ '-' :: number stop := by
    simp [not_mem_number (show Char.isDigit ':' = false from rfl)]
  rw [toText, parse_chunk, parseChunk, rsplitOnce_append _ hrange]
  simp only [Option.bind_eq_bind, Option.bind_some]
  rw [splitOnce_append (not_mem_number rfl start)]
  simp [hpath, hle]

theorem parse_dir_text {path : List Char} (h : path.getLast? ≠ some '/') :
    parse (toText (.dir path)) = ofDir path := by
  have hnone : (escape path).dropSuffix? ['/'] = none := by
    rw [Option.eq_none_iff_forall_ne_some]
    intro rest hrest
    obtain ⟨s, heq, hs⟩ := List.dropSuffix?_eq_some_iff.mp hrest
    rw [eq_of_beq hs] at heq
    refine h ((getLast?_escape path).mp ?_)
    rw [heq, List.getLast?_concat]
  rw [toText, parse_dir, parseDir, hnone, Option.getD_none, unescape_escape]

theorem parse_dir_text_slash (path : List Char) : parse (toText (.dir (path ++ ['/']))) = ofDir path := by
  have hsome : (escape (path ++ ['/'])).dropSuffix? ['/'] = some (escape path) := by
    rw [List.dropSuffix?_eq_some_iff, escape_append]
    exact ⟨['/'], rfl, rfl⟩
  rw [toText, parse_dir, parseDir, hsome, Option.getD_some, unescape_escape]

/-- A valid handle is read back from its text. -/
theorem parse_toText {h : Handle} (hv : h.Valid) (hs : ¬h.TrailingSlash) : parse h.toText = some h := by
  cases h with
  | symbol path qualified line => exact parse_symbol_text hv.1 hv.2 line
  | file path =>
    have hvalid : validPath path = true := hv
    rw [toText, parse_file, parseFile, unescape_escape, ofFile, if_pos hvalid]
  | dir path =>
    have hvalid : validPath path = true := hv
    rw [parse_dir_text hs, ofDir, if_pos hvalid]
  | chunk path start stop => exact parse_chunk_text hv.1 hv.2
  | feature id =>
    obtain ⟨hex, rfl, hlen, hhex⟩ := hv
    rw [toText, parse_feature, parseFeature_eq_some]
    exact ⟨rfl, hlen, hhex⟩

theorem parse_toText_slash {path : List Char} (hv : (dir (path ++ ['/'])).Valid) :
    parse (toText (.dir (path ++ ['/']))) = some (.dir path) := by
  rw [parse_dir_text_slash, ofDir, if_pos (validPath_of_slash hv)]

end Emitted

section Returned

theorem ofFile_eq_some {path : List Char} {h : Handle} (hp : ofFile path = some h) :
    h = .file path ∧ validPath path = true := by
  unfold ofFile at hp
  split at hp
  · cases hp
    exact ⟨rfl, ‹_›⟩
  · cases hp

theorem ofDir_eq_some {path : List Char} {h : Handle} (hp : ofDir path = some h) :
    h = .dir path ∧ validPath path = true := by
  unfold ofDir at hp
  split at hp
  · cases hp
    exact ⟨rfl, ‹_›⟩
  · cases hp

theorem parseSymbol_valid {rest : List Char} {h : Handle} (hp : parseSymbol rest = some h) : h.Valid := by
  simp only [parseSymbol, Option.bind_eq_bind, Option.bind_eq_some_iff] at hp
  obtain ⟨⟨path, tail⟩, -, ⟨qualified, line⟩, -, hp⟩ := hp
  split at hp
  · cases hp
  · split at hp
    · rename_i hcond
      cases hp
      simpa [Valid] using hcond
    · cases hp

theorem parseChunk_valid {rest : List Char} {h : Handle} (hp : parseChunk rest = some h) : h.Valid := by
  simp only [parseChunk, Option.bind_eq_bind, Option.bind_eq_some_iff] at hp
  obtain ⟨⟨path, range⟩, -, ⟨first, last⟩, -, start, -, stop, -, hp⟩ := hp
  split at hp
  · rename_i hcond
    cases hp
    simpa [Valid] using hcond
  · cases hp

theorem parse_valid {input : List Char} {h : Handle} (hparse : parse input = some h) : h.Valid := by
  rcases parse_cases hparse with ⟨hex, rfl, hp⟩ | ⟨rest, -, hp⟩ | ⟨rest, -, hp⟩ | ⟨rest, -, hp⟩ | ⟨rest, -, hp⟩
  · obtain ⟨rfl, hlen, hhex⟩ := parseFeature_eq_some.mp hp
    exact ⟨hex, rfl, hlen, hhex⟩
  · exact parseSymbol_valid hp
  · obtain ⟨rfl, hvalid⟩ := ofFile_eq_some hp
    exact hvalid
  · obtain ⟨rfl, hvalid⟩ := ofDir_eq_some hp
    exact hvalid
  · exact parseChunk_valid hp

/-- The handles a client can be shown: read from a text, or made from a path. -/
def Issued (h : Handle) : Prop :=
  (∃ input, parse input = some h) ∨ (∃ path, ofFile path = some h) ∨ ∃ path, ofDir path = some h

theorem Issued.valid {h : Handle} (hi : h.Issued) : h.Valid := by
  obtain ⟨input, hp⟩ | ⟨path, hp⟩ | ⟨path, hp⟩ := hi
  · exact parse_valid hp
  · obtain ⟨rfl, hvalid⟩ := ofFile_eq_some hp
    exact hvalid
  · obtain ⟨rfl, hvalid⟩ := ofDir_eq_some hp
    exact hvalid

end Returned

section Reemission

/-- `trim_end_matches('/')` -/
def trimSlashes (path : List Char) : List Char := path.rdropWhile (· == '/')

/-- What a handle names: a directory is looked up without its trailing slashes. -/
def entity : Handle → Handle
  | .dir path => .dir (trimSlashes path)
  | h => h

/-- A client sends back the text of a handle. -/
def reemit (h : Option Handle) : Option Handle := h.bind fun h => parse h.toText

theorem entity_slash (path : List Char) : entity (.dir (path ++ ['/'])) = entity (.dir path) := by
  simp [entity, trimSlashes]

/-- One re-emission keeps what the handle names. -/
theorem reemit_entity {h : Handle} (hv : h.Valid) :
    ∃ h', reemit (some h) = some h' ∧ h'.Valid ∧ h'.entity = h.entity := by
  by_cases hs : h.TrailingSlash
  · cases h with
    | dir path =>
      obtain ⟨init, rfl⟩ := List.getLast?_eq_some_iff.mp hs
      exact ⟨.dir init, parse_toText_slash hv, validPath_of_slash hv, (entity_slash init).symm⟩
    | symbol => exact hs.elim
    | file => exact hs.elim
    | chunk => exact hs.elim
    | feature => exact hs.elim
  · exact ⟨h, parse_toText hv hs, hv, rfl⟩

theorem iterate_reemit_entity {h : Handle} (hv : h.Valid) (n : Nat) :
    ∃ h', reemit^[n] (some h) = some h' ∧ h'.Valid ∧ h'.entity = h.entity := by
  induction n with
  | zero => exact ⟨h, rfl, hv, rfl⟩
  | succ n ih =>
    obtain ⟨h', hn, hv', he'⟩ := ih
    obtain ⟨h'', hstep, hv'', he''⟩ := reemit_entity hv'
    refine ⟨h'', ?_, hv'', he''.trans he'⟩
    rw [Function.iterate_succ_apply', hn, hstep]

end Reemission

/-- Handles round trip through their text, so no two of them share one. -/
theorem handle_round_trip :
    (∀ h : Handle, h.Valid → ¬h.TrailingSlash → parse h.toText = some h) ∧
    ∀ h h' : Handle, h.Valid → ¬h.TrailingSlash → h'.Valid → ¬h'.TrailingSlash →
      h.toText = h'.toText → h = h' := by
  refine ⟨fun h hv hs => parse_toText hv hs, ?_⟩
  intro h h' hv hs hv' hs' heq
  have hread := parse_toText hv hs
  rw [heq, parse_toText hv' hs'] at hread
  exact (Option.some.inj hread).symm

/-- `Handle::symbol("a#b@%", "f@25", Some(7))` -/
theorem handle_round_trip_awkward :
    parse (toText (.symbol ['a', '#', 'b', '@', '%'] ['f', '@', '2', '5'] (some 7))) =
      some (.symbol ['a', '#', 'b', '@', '%'] ['f', '@', '2', '5'] (some 7)) :=
  handle_round_trip.1 _ ⟨by decide, by simp⟩ (by simp [TrailingSlash])

/-- A handle that is sent back is read as itself, or as the same directory with one `/` less. -/
theorem reemission_stable (h : Handle) (hi : h.Issued) :
    (¬h.TrailingSlash → parse h.toText = some h) ∧
    (∀ path, h = .dir (path ++ ['/']) → parse h.toText = some (.dir path)) ∧
    ∀ n, ∃ h', reemit^[n] (some h) = some h' ∧ h'.entity = h.entity := by
  refine ⟨fun hs => parse_toText hi.valid hs, ?_, fun n => ?_⟩
  · rintro path rfl
    exact parse_toText_slash hi.valid
  · obtain ⟨h', hn, -, he⟩ := iterate_reemit_entity hi.valid n
    exact ⟨h', hn, he⟩

/-- `Handle::parse("file:100%")` -/
theorem reemission_stable_percent :
    parse (toText (.file ['1', '0', '0', '%'])) = some (.file ['1', '0', '0', '%']) :=
  (reemission_stable _ (.inl ⟨FILE ++ ['1', '0', '0', '%'], by decide⟩)).1 (by simp [TrailingSlash])

/-- `Handle::parse("dir:a//")` and `Handle::dir("a/")` -/
theorem reemission_drops_slash :
    parse (DIR ++ ['a', '/', '/']) = some (.dir ['a', '/']) ∧ ofDir ['a', '/'] = some (.dir ['a', '/']) ∧
      parse (toText (.dir ['a', '/'])) = some (.dir ['a']) ∧
      ¬(∀ input h, parse input = some h → parse h.toText = some h) ∧
      ¬(∀ path h, ofDir path = some h → parse h.toText = some h) := by
  have hparse : parse (DIR ++ ['a', '/', '/']) = some (.dir ['a', '/']) := by decide
  have hdir : ofDir ['a', '/'] = some (.dir ['a', '/']) := by decide
  have hagain : parse (toText (.dir ['a', '/'])) = some (.dir ['a']) := by decide
  refine ⟨hparse, hdir, hagain, fun hall => ?_, fun hall => ?_⟩
  · have := hall _ _ hparse
    rw [hagain] at this
    simp at this
  · have := hall _ _ hdir
    rw [hagain] at this
    simp at this

end Handle
end Protocol
end CodeSage
