import CodeSage.Graph.Resolver
import CodeSage.Lib.Lines
import CodeSage.Lib.Split

/-!
# CodeSage.Graph.ChunkLines

The header `augment_chunks` puts in front of a chunk (`crates/graph/src/semantic.rs`), and the line numbers
`number_chunk_lines` adds when a bundle is read (`crates/graph/src/bundle.rs`). The reader finds the end of
the header by the shape of its lines.

The numbers are the source's own exactly when no line of the header or the body is misread for the other.
-/

namespace CodeSage
namespace Graph
namespace ChunkLines

open Lib Resolver

/-- `SymbolKind::as_str` -/
def asStr : SymbolKind → Text
  | .function => "function".toList
  | .method => "method".toList
  | .class_ => "class".toList
  | .trait => "trait".toList
  | .interface => "interface".toList
  | .struct => "struct".toList
  | .enum => "enum".toList
  | .constant => "constant".toList
  | .macro_ => "macro".toList
  | .module => "module".toList
  | .namespace_ => "namespace".toList

def SYMBOL_KIND_STRS : List Text :=
  ["function", "method", "class", "trait", "interface", "struct", "enum", "constant", "macro", "module",
    "namespace"].map String.toList

def isSymbolHeaderLine (line : Text) : Bool :=
  match line.dropPrefix? "# ".toList with
  | none => false
  | some rest =>
    match afterLast " (".toList rest with
    | none => false
    | some after =>
      match after.dropSuffix? [')'] with
      | none => false
      | some kind => SYMBOL_KIND_STRS.contains kind

/-- `format!("# {file_path}")` -/
def headerAnchor (filePath : Text) : Text := "# ".toList ++ filePath

/-- The line of a header for one symbol. -/
def symbolLine (sym : Definition) : Text :=
  "# ".toList ++ (if sym.qualifiedName ≠ sym.name then sym.qualifiedName else sym.name) ++ " (".toList ++
    asStr sym.kind ++ [')']

def buildChunkHeader (filePath : Text) (symbols : List Definition) (startLine endLine : UInt32) : Text :=
  let overlapping := symbols.filter fun s => s.lineStart ≤ endLine && startLine ≤ s.lineEnd
  ['\n'].intercalate (headerAnchor filePath :: overlapping.map symbolLine)

/-- One chunk of `augment_chunks`: its text, first and last line. -/
def augmentChunk (filePath : Text) (symbols : List Definition) (chunk : Text × UInt32 × UInt32) :
    Text × UInt32 × UInt32 :=
  let (text, startLine, endLine) := chunk
  let header := buildChunkHeader filePath symbols startLine endLine
  (if !header.isEmpty then header ++ ['\n'] ++ text else text, startLine, endLine)

def augmentChunks (filePath : Text) (symbols : List Definition) (chunks : List (Text × UInt32 × UInt32)) :
    List (Text × UInt32 × UInt32) :=
  chunks.map (augmentChunk filePath symbols)

/-- How many of the lines belong to the header. -/
def headerLength (lines : List Text) (filePath : Text) (augmented : Bool) : Nat :=
  if augmented && decide (lines.head? = some (headerAnchor filePath)) then
    1 + (lines.tail.takeWhile isSymbolHeaderLine).length
  else 0

/-- `last_no.to_string().len().max(4)` -/
def gutterWidth (startLine bodyCount : Nat) : Nat := max (decimal (startLine + (bodyCount - 1))).length 4

/-- `format!("{n:>width$} | ")` -/
def gutter (width n : Nat) : Text := (decimal n).leftpad width ' ' ++ " | ".toList

def numberChunkLines (content filePath : Text) (startLine : UInt32) (augmented : Bool) : Text :=
  if content.isEmpty then []
  else
    let ls := lines content
    let idx := headerLength ls filePath augmented
    let width := gutterWidth startLine.toNat (ls.length - idx)
    let out := ((ls.take idx).map (· ++ ['\n']) ++
      (ls.drop idx).mapIdx fun offset line => gutter width (startLine.toNat + offset) ++ line ++ ['\n']).flatten
    if content.getLast? = some '\n' then out else out.dropLast

/-- A body with its line numbers: every line, as it is, behind its number. -/
def numberedBody (startLine : UInt32) (body : Text) : Text :=
  let width := gutterWidth startLine.toNat (pieces body).length
  ((pieces body).mapIdx fun k line => gutter width (startLine.toNat + k) ++ line).flatten

/-- How the text of a chunk was stored: behind a header, or bare, which the reader may take for augmented. -/
inductive Stored where
  | augmented (symbols : List Definition) (endLine : UInt32)
  | bare (augmented : Bool)

namespace Stored

def flag : Stored → Bool
  | .augmented _ _ => true
  | .bare b => b

def text (filePath : Text) (startLine : UInt32) (body : Text) : Stored → Text
  | .augmented symbols endLine => (augmentChunk filePath symbols (body, startLine, endLine)).1
  | .bare _ => body

/-- What stands in front of the body, with its line ending. -/
def header (filePath : Text) (startLine : UInt32) : Stored → Text
  | .augmented symbols endLine => buildChunkHeader filePath symbols startLine endLine ++ ['\n']
  | .bare _ => []

/-- No line ends in `\r\n`, every line of the header below the anchor reads as the line of a symbol, and the
first line of the body does not; the first line of a bare body that may count as augmented is not the anchor. -/
def Legible (filePath : Text) (startLine : UInt32) (body : Text) : Stored → Prop
  | .augmented symbols endLine =>
    let header := buildChunkHeader filePath symbols startLine endLine ++ ['\n']
    (¬['\r', '\n'] <:+: header ++ body) ∧ (∀ l ∈ (lines header).tail, isSymbolHeaderLine l = true) ∧
      ∀ l, (lines body).head? = some l → isSymbolHeaderLine l = false
  | .bare b =>
    (¬['\r', '\n'] <:+: body) ∧ (b = true → (lines body).head? ≠ some (headerAnchor filePath))

end Stored

section Header

theorem asStr_mem (kind : SymbolKind) : SYMBOL_KIND_STRS.contains (asStr kind) = true := by
  cases kind <;> decide

theorem space_not_mem_asStr (kind : SymbolKind) : ' ' ∉ asStr kind := by
  cases kind <;> decide

theorem newline_not_mem_asStr (kind : SymbolKind) : '\n' ∉ asStr kind := by
  cases kind <;> decide

/-- The reader knows the line that is written for a symbol. -/
theorem isSymbolHeaderLine_symbolLine (sym : Definition) : isSymbolHeaderLine (symbolLine sym) = true := by
  have hopen : " (".toList = ' ' :: ['('] := by decide
  have hprefix : ∀ s : Text, ("# ".toList ++ s).dropPrefix? "# ".toList = some s := by
    intro s
    have : "# ".toList = ['#', ' '] := by decide
    simp [this, List.dropPrefix?]
  have hafter : ∀ name : Text, afterLast " (".toList (name ++ (" (".toList ++ (asStr sym.kind ++ [')']))) =
      some (asStr sym.kind ++ [')']) := by
    intro name
    rw [hopen]
    refine afterLast_append (by decide) ?_ name
    simpa using space_not_mem_asStr sym.kind
  have hkind : (asStr sym.kind ++ [')']).dropSuffix? [')'] = some (asStr sym.kind) := by simp [List.dropSuffix?]
  rw [isSymbolHeaderLine, symbolLine, List.append_assoc, List.append_assoc, List.append_assoc, hprefix]
  simp only [hafter, hkind]
  exact asStr_mem sym.kind

theorem buildChunkHeader_ne_nil (filePath : Text) (symbols : List Definition) (startLine endLine : UInt32) :
    buildChunkHeader filePath symbols startLine endLine ≠ [] := by
  rw [buildChunkHeader]
  generalize (symbols.filter fun s => s.lineStart ≤ endLine && startLine ≤ s.lineEnd).map symbolLine = ls
  cases ls with
  | nil => simp [headerAnchor]
  | cons l ls => simp [headerAnchor]

theorem Stored.text_eq (stored : Stored) (filePath : Text) (startLine : UInt32) (body : Text) :
    stored.text filePath startLine body = stored.header filePath startLine ++ body := by
  cases stored with
  | bare b => rfl
  | augmented symbols endLine =>
    have hne := buildChunkHeader_ne_nil filePath symbols startLine endLine
    rw [Stored.text, augmentChunk, if_pos (by simpa using hne)]
    rfl

theorem Stored.header_ends (stored : Stored) (filePath : Text) (startLine : UInt32) :
    stored.header filePath startLine = [] ∨ (stored.header filePath startLine).getLast? = some '\n' := by
  cases stored with
  | bare b => exact Or.inl rfl
  | augmented symbols endLine => exact Or.inr (by simp [Stored.header])

end Header

section Gutter

theorem newline_not_mem_gutter (width n : Nat) : '\n' ∉ gutter width n := by
  intro hmem
  rcases List.mem_append.mp hmem with hmem | hmem
  · rw [List.leftpad] at hmem
    rcases List.mem_append.mp hmem with hmem | hmem
    · exact absurd (List.mem_replicate.mp hmem).2 (by decide)
    · exact absurd (isDigit_decimal hmem) (by decide)
  · exact absurd hmem (by decide)

theorem two_le_length_gutter (width n : Nat) : 2 ≤ (gutter width n).length := by
  rw [gutter, List.length_append]
  have : " | ".toList.length = 3 := by decide
  omega

theorem map_mapIdx {α β γ : Type} (l : List α) (f : Nat → α → β) (g : β → γ) :
    (l.mapIdx f).map g = l.mapIdx fun i a => g (f i a) := by
  refine List.ext_getElem? fun i => ?_
  simp [List.getElem?_mapIdx, Function.comp_def]

theorem mapIdx_map {α β γ : Type} (l : List α) (g : α → β) (f : Nat → β → γ) :
    (l.map g).mapIdx f = l.mapIdx fun i a => f i (g a) := by
  refine List.ext_getElem? fun i => ?_
  simp [List.getElem?_mapIdx, Function.comp_def]

/-- Pieces with what stands in front of them when the first `idx` are the header. -/
def tagged (width start idx : Nat) (ps : List Text) : List (Text × Text) :=
  ps.mapIdx fun j p => (if j < idx then [] else gutter width (start + (j - idx)), p)

theorem snd_tagged (width start idx : Nat) (ps : List Text) : (tagged width start idx ps).map Prod.snd = ps := by
  rw [tagged, map_mapIdx]
  exact List.mapIdx_eq_iff.mpr fun j => by simp

theorem newline_not_mem_tagged (width start idx : Nat) (ps : List Text) :
    ∀ q ∈ tagged width start idx ps, '\n' ∉ q.1 := by
  intro q hq
  obtain ⟨j, hj, rfl⟩ := List.mem_mapIdx.mp hq
  simp only
  split
  · simp
  · exact newline_not_mem_gutter _ _

theorem cut_tagged (width start idx : Nat) {ps : List Text} (g : Text → Text) (hcut : Cut (ps.map g)) :
    Cut ((tagged width start idx ps).map fun q => q.1 ++ g q.2) := by
  have hsnd : ((tagged width start idx ps).map fun q => (q.1, g q.2)).map Prod.snd = ps.map g := by
    rw [List.map_map, ← snd_tagged width start idx ps, List.map_map, snd_tagged]
    rfl
  have hfst : ∀ q ∈ (tagged width start idx ps).map fun q => (q.1, g q.2), '\n' ∉ q.1 := by
    intro q hq
    obtain ⟨r, hr, rfl⟩ := List.mem_map.mp hq
    exact newline_not_mem_tagged _ _ _ _ r hr
  have := Cut.map_prefix (hsnd.symm ▸ hcut) hfst
  rwa [List.map_map] at this

theorem mapIdx_split {β : Type} (ps : List Text) (idx : Nat) (hidx : idx ≤ ps.length) (g : Text → β)
    (f : Nat → Text → β) :
    (ps.mapIdx fun j p => if j < idx then g p else f (j - idx) p) = (ps.take idx).map g ++ (ps.drop idx).mapIdx f := by
  induction idx generalizing ps with
  | zero => simp
  | succ idx ih =>
    cases ps with
    | nil => simp at hidx
    | cons p ps =>
      rw [List.length_cons, Nat.succ_le_succ_iff] at hidx
      rw [List.mapIdx_cons, List.take_succ_cons, List.drop_succ_cons, List.map_cons, List.cons_append, ← ih ps hidx,
        if_pos (Nat.succ_pos idx)]
      simp

theorem tagged_map (width start idx : Nat) (ps : List Text) (hidx : idx ≤ ps.length) (g : Text → Text) :
    ((tagged width start idx ps).map fun q => q.1 ++ g q.2) =
      (ps.take idx).map g ++ (ps.drop idx).mapIdx fun k p => gutter width (start + k) ++ g p := by
  rw [← mapIdx_split ps idx hidx, tagged, map_mapIdx]
  refine congrArg (List.mapIdx · ps) ?_
  funext j p
  simp only
  split <;> rfl

/-- Two ways to number the same pieces agree only where they take the same lines for the header. -/
theorem tagged_eq_iff {width width' start idx idx' : Nat} {ps : List Text} (hidx : idx ≤ ps.length)
    (hidx' : idx' ≤ ps.length) (hwidth : idx = idx' → width = width') :
    ((tagged width start idx ps).map fun q => q.1 ++ unixPiece q.2) =
        ((tagged width' start idx' ps).map fun q => q.1 ++ q.2) ↔
      idx = idx' ∧ ∀ p ∈ ps, unixPiece p = p := by
  have hget : ∀ (w i : Nat) (g : Text → Text) (j : Nat) (hj : j < ps.length),
      ((tagged w start i ps).map fun q => q.1 ++ g q.2)[j]? =
        some ((if j < i then [] else gutter w (start + (j - i))) ++ g (ps[j])) := by
    intro w i g j hj
    rw [tagged, map_mapIdx, List.getElem?_mapIdx, List.getElem?_eq_getElem hj]
    rfl
  constructor
  · intro h
    have hat : ∀ (j : Nat) (hj : j < ps.length),
        (if j < idx then [] else gutter width (start + (j - idx))) ++ unixPiece ps[j] =
          (if j < idx' then [] else gutter width' (start + (j - idx'))) ++ ps[j] := by
      intro j hj
      have heq := congrArg (fun l => l[j]?) h
      simp only [hget width idx unixPiece j hj] at heq
      exact Option.some.inj (heq.trans (hget width' idx' id j hj))
    have heq : idx = idx' := by
      rcases Nat.lt_trichotomy idx idx' with hlt | heq | hgt
      · have hj : idx < ps.length := Nat.lt_of_lt_of_le hlt hidx'
        have hlen := congrArg List.length (hat idx hj)
        rw [if_neg (Nat.lt_irrefl _), if_pos hlt, List.length_append, List.nil_append] at hlen
        have := two_le_length_gutter width (start + (idx - idx))
        have := (length_unixPiece_le ps[idx]).2
        omega
      · exact heq
      · have hj : idx' < ps.length := Nat.lt_of_lt_of_le hgt hidx
        have hlen := congrArg List.length (hat idx' hj)
        rw [if_neg (Nat.lt_irrefl _), if_pos hgt, List.nil_append, List.length_append] at hlen
        have := two_le_length_gutter width' (start + (idx' - idx'))
        have := (length_unixPiece_le ps[idx']).1
        omega
    refine ⟨heq, fun p hp => ?_⟩
    obtain ⟨j, hj, rfl⟩ := List.mem_iff_getElem.mp hp
    have hline := hat j hj
    rw [heq, hwidth heq] at hline
    exact List.append_cancel_left hline
  · rintro ⟨rfl, hunix⟩
    rw [hwidth rfl]
    refine List.map_congr_left fun q hq => ?_
    have hmem : q.2 ∈ ps := by
      rw [← snd_tagged width' start idx ps]
      exact List.mem_map_of_mem hq
    rw [hunix q.2 hmem]

end Gutter

section Numbers

theorem length_lines (s : Text) : (lines s).length = (pieces s).length := List.length_map _

theorem headerLength_le (ls : List Text) (filePath : Text) (augmented : Bool) :
    headerLength ls filePath augmented ≤ ls.length := by
  rw [headerLength]
  split
  · rename_i h
    cases ls with
    | nil => simp at h
    | cons l ls =>
      have := (List.takeWhile_sublist isSymbolHeaderLine (l := ls)).length_le
      simp only [List.tail_cons, List.length_cons]
      omega
  · exact Nat.zero_le _

/-- What the reader makes of a text, piece by piece. -/
theorem numberChunkLines_eq (content filePath : Text) (startLine : UInt32) (augmented : Bool) {idx width : Nat}
    (hidx : headerLength (lines content) filePath augmented = idx)
    (hwidth : gutterWidth startLine.toNat ((pieces content).length - idx) = width) :
    numberChunkLines content filePath startLine augmented =
      ((tagged width startLine.toNat idx (pieces content)).map fun q => q.1 ++ unixPiece q.2).flatten := by
  by_cases hnil : content = []
  · rw [hnil]
    rfl
  · have hpieces : pieces content ≠ [] := fun h => hnil (by rw [← flatten_pieces content, h]; rfl)
    have hle : idx ≤ (pieces content).length := by
      rw [← hidx, ← length_lines]
      exact headerLength_le _ _ _
    have htake : ((lines content).take idx).map (· ++ ['\n']) =
        ((pieces content).take idx).map fun p => chomp p ++ ['\n'] := by
      rw [lines, ← List.map_take, List.map_map]
      rfl
    have hdrop : ((lines content).drop idx).mapIdx (fun k l => gutter width (startLine.toNat + k) ++ l ++ ['\n']) =
        ((pieces content).drop idx).mapIdx fun k p => gutter width (startLine.toNat + k) ++ (chomp p ++ ['\n']) := by
      rw [lines, ← List.map_drop, mapIdx_map]
      simp only [List.append_assoc]
    have hcode : numberChunkLines content filePath startLine augmented =
        if content.getLast? = some '\n' then
          ((tagged width startLine.toNat idx (pieces content)).map fun q => q.1 ++ (chomp q.2 ++ ['\n'])).flatten
        else
          ((tagged width startLine.toNat idx (pieces content)).map fun q => q.1 ++ (chomp q.2 ++ ['\n'])).flatten.dropLast := by
      rw [tagged_map _ _ _ _ hle fun p => chomp p ++ ['\n'], ← htake, ← hdrop, ← hwidth, ← hidx, ← length_lines,
        numberChunkLines, if_neg (by simpa using hnil)]
    have hcut : Cut ((tagged width startLine.toNat idx (pieces content)).map Prod.snd) := by
      rw [snd_tagged]
      exact cut_pieces content
    have hchomp := flatMap_chomp hcut (by simpa [tagged] using hpieces)
    rw [snd_tagged, flatten_pieces, List.flatMap_def, List.flatMap_def] at hchomp
    rw [hcode, ← hchomp]
    simp only [List.append_assoc]

/-- The header as it is and the body with its numbers, piece by piece. -/
theorem header_numberedBody_eq (header body : Text) (startLine : UInt32)
    (hend : header = [] ∨ header.getLast? = some '\n') :
    header ++ numberedBody startLine body =
      ((tagged (gutterWidth startLine.toNat (pieces body).length) startLine.toNat (pieces header).length
        (pieces (header ++ body))).map fun q => q.1 ++ q.2).flatten := by
  have hpieces := pieces_append hend body
  have hmap := tagged_map (gutterWidth startLine.toNat (pieces body).length) startLine.toNat (pieces header).length
    (pieces (header ++ body)) (by rw [hpieces, List.length_append]; exact Nat.le_add_right _ _) id
  rw [hpieces, List.take_left, List.drop_left, List.map_id, ← hpieces] at hmap
  refine Eq.trans ?_ (congrArg List.flatten hmap).symm
  rw [List.flatten_append, flatten_pieces]
  rfl

theorem takeWhile_append_length {α : Type} (p : α → Bool) (xs ys : List α) :
    ((xs ++ ys).takeWhile p).length = xs.length ↔
      (∀ x ∈ xs, p x = true) ∧ ∀ y, ys.head? = some y → p y = false := by
  induction xs with
  | nil =>
    cases ys with
    | nil => simp
    | cons y ys => cases hy : p y <;> simp [hy]
  | cons x xs ih =>
    cases hx : p x with
    | false => simp [hx]
    | true =>
      rw [List.cons_append, List.takeWhile_cons_of_pos hx, List.length_cons, List.length_cons, Nat.succ_inj, ih]
      simp [hx]

theorem newline_not_mem_headerAnchor {filePath : Text} (hpath : '\n' ∉ filePath) : '\n' ∉ headerAnchor filePath := by
  intro hmem
  rcases List.mem_append.mp hmem with hmem | hmem
  · exact absurd hmem (by decide)
  · exact hpath hmem

/-- A header starts with the line of the path. -/
theorem buildChunkHeader_eq (filePath : Text) (symbols : List Definition) (startLine endLine : UInt32) :
    ∃ rest, buildChunkHeader filePath symbols startLine endLine ++ ['\n'] = headerAnchor filePath ++ '\n' :: rest := by
  rw [buildChunkHeader]
  generalize (symbols.filter fun s => s.lineStart ≤ endLine && startLine ≤ s.lineEnd).map symbolLine = ls
  cases ls with
  | nil => exact ⟨[], by simp⟩
  | cons l ls => exact ⟨['\n'].intercalate (l :: ls) ++ ['\n'], by simp [List.intercalate_cons_cons]⟩

/-- The reader takes the right lines for the header. -/
theorem headerLength_iff (stored : Stored) (filePath body : Text) (startLine : UInt32) (hpath : '\n' ∉ filePath) :
    (headerLength (lines (stored.header filePath startLine ++ body)) filePath stored.flag =
          (pieces (stored.header filePath startLine)).length ∧
        ∀ p ∈ pieces (stored.header filePath startLine ++ body), unixPiece p = p) ↔
      stored.Legible filePath startLine body := by
  rw [unixPiece_pieces_iff, and_comm]
  cases stored with
  | bare b =>
    refine and_congr_right fun _ => ?_
    have hzero : headerLength (lines body) filePath b = 0 ↔
        ¬(b && decide ((lines body).head? = some (headerAnchor filePath))) = true := by
      rw [headerLength]
      split
      · rename_i h
        exact ⟨fun hlen => by omega, fun hnot => absurd h hnot⟩
      · rename_i h
        exact ⟨fun _ => h, fun _ => rfl⟩
    refine hzero.trans ?_
    simp
  | augmented symbols endLine =>
    refine and_congr_right fun hcrlf => ?_
    obtain ⟨rest, hrest⟩ := buildChunkHeader_eq filePath symbols startLine endLine
    have hend := (Stored.augmented symbols endLine).header_ends filePath startLine
    have hlines : lines (Stored.header filePath startLine (.augmented symbols endLine) ++ body) =
        headerAnchor filePath :: (lines rest ++ lines body) := by
      rw [lines, pieces_append hend, Stored.header, hrest, pieces_line (newline_not_mem_headerAnchor hpath)]
      have hmem : headerAnchor filePath ++ ['\n'] ∈
          pieces (Stored.header filePath startLine (.augmented symbols endLine) ++ body) := by
        rw [pieces_append hend, Stored.header, hrest, pieces_line (newline_not_mem_headerAnchor hpath)]
        exact List.mem_append_left _ List.mem_cons_self
      have hunix := (unixPiece_pieces_iff _).mpr hcrlf _ hmem
      have hlast := unixPiece_eq_self_iff.mp hunix
      simp [chomp_line, hlast, lines]
    have htail : (lines (buildChunkHeader filePath symbols startLine endLine ++ ['\n'])).tail = lines rest := by
      rw [hrest, lines, pieces_line (newline_not_mem_headerAnchor hpath)]
      rfl
    have hcount : (pieces (Stored.header filePath startLine (.augmented symbols endLine))).length =
        1 + (lines rest).length := by
      rw [Stored.header, hrest, pieces_line (newline_not_mem_headerAnchor hpath), List.length_cons, length_lines,
        Nat.add_comm]
    rw [hlines, hcount, headerLength, if_pos (by simp [Stored.flag]), List.tail_cons, Nat.add_left_cancel_iff,
      takeWhile_append_length, htail]

/-- Symbols whose names hold no line break write a header that reads back. -/
theorem header_reads_back {filePath : Text} {symbols : List Definition} (startLine endLine : UInt32)
    (hpath : '\n' ∉ filePath) (hnames : ∀ s ∈ symbols, '\n' ∉ s.name ∧ '\n' ∉ s.qualifiedName) :
    ∀ l ∈ (lines (buildChunkHeader filePath symbols startLine endLine ++ ['\n'])).tail,
      isSymbolHeaderLine l = true := by
  have hsymbol : ∀ s ∈ symbols, '\n' ∉ symbolLine s := by
    intro s hs hmem
    have hname : '\n' ∉ (if s.qualifiedName ≠ s.name then s.qualifiedName else s.name) := by
      split
      · exact (hnames s hs).2
      · exact (hnames s hs).1
    simp only [symbolLine, List.mem_append, hname, newline_not_mem_asStr] at hmem
    revert hmem
    decide
  have hlines : ∀ m ∈ headerAnchor filePath ::
      (symbols.filter fun s => s.lineStart ≤ endLine && startLine ≤ s.lineEnd).map symbolLine, '\n' ∉ m := by
    intro m hm
    rcases List.mem_cons.mp hm with rfl | hm
    · exact newline_not_mem_headerAnchor hpath
    · obtain ⟨s, hs, rfl⟩ := List.mem_map.mp hm
      exact hsymbol s (List.mem_of_mem_filter hs)
  intro l hl
  rw [lines, buildChunkHeader, pieces_intercalate hlines, List.map_cons, List.map_cons, List.tail_cons, List.map_map,
    List.map_map] at hl
  obtain ⟨s, -, rfl⟩ := List.mem_map.mp hl
  have hchomp : chomp (symbolLine s ++ ['\n']) = symbolLine s := by
    rw [chomp_line, symbolLine, List.getLast?_concat, if_neg (by decide)]
  rw [Function.comp_apply, Function.comp_apply, hchomp]
  exact isSymbolHeaderLine_symbolLine s

end Numbers

/-- The exact condition under which every line of a chunk's body gets its own number, the header none, and
nothing else changes. -/
theorem numbers_are_source_lines_iff (stored : Stored) (filePath body : Text) (startLine : UInt32)
    (hpath : '\n' ∉ filePath) :
    numberChunkLines (stored.text filePath startLine body) filePath startLine stored.flag =
        stored.header filePath startLine ++ numberedBody startLine body ↔
      stored.Legible filePath startLine body := by
  have hend := stored.header_ends filePath startLine
  have hlength : (pieces (stored.header filePath startLine ++ body)).length =
      (pieces (stored.header filePath startLine)).length + (pieces body).length := by
    rw [pieces_append hend, List.length_append]
  have hle := headerLength_le (lines (stored.header filePath startLine ++ body)) filePath stored.flag
  rw [length_lines] at hle
  generalize hidx : headerLength (lines (stored.header filePath startLine ++ body)) filePath stored.flag = idx at hle
  have hle' : (pieces (stored.header filePath startLine)).length ≤
      (pieces (stored.header filePath startLine ++ body)).length := by
    rw [hlength]
    exact Nat.le_add_right _ _
  have hwidth : idx = (pieces (stored.header filePath startLine)).length →
      gutterWidth startLine.toNat ((pieces (stored.header filePath startLine ++ body)).length - idx) =
        gutterWidth startLine.toNat (pieces body).length := by
    intro h
    rw [h, hlength, Nat.add_sub_cancel_left]
  have hcut := cut_pieces (stored.header filePath startLine ++ body)
  rw [stored.text_eq, numberChunkLines_eq _ _ _ _ hidx rfl, header_numberedBody_eq _ _ _ hend,
    ← headerLength_iff stored filePath body startLine hpath, hidx, ← tagged_eq_iff hle hle' hwidth]
  constructor
  · exact Cut.flatten_inj (cut_tagged _ _ _ unixPiece hcut.map_unixPiece)
      (cut_tagged _ _ _ id (by rwa [List.map_id]))
  · exact congrArg List.flatten

theorem numbers_are_source_lines_iff_for_a_script :
    '\n' ∉ "app/x.py".toList ∧
      (numberChunkLines ((Stored.bare true).text "app/x.py".toList 7 "x = 1\n".toList) "app/x.py".toList 7 true =
          [] ++ numberedBody 7 "x = 1\n".toList ↔
        (Stored.bare true).Legible "app/x.py".toList 7 "x = 1\n".toList) :=
  ⟨by decide, numbers_are_source_lines_iff (.bare true) "app/x.py".toList "x = 1\n".toList 7 (by decide)⟩

/-- A body that starts with a comment of the shape of a symbol's line loses the number of that line, and the
line after it gets it. -/
theorem comment_read_as_header :
    let stored := Stored.augmented [] 6
    let path := "app/x.py".toList
    let body := "# run (function)\nx = 1\n".toList
    numberChunkLines (stored.text path 5 body) path 5 stored.flag ≠ stored.header path 5 ++ numberedBody 5 body ∧
      numberChunkLines (stored.text path 5 body) path 5 stored.flag =
        "# app/x.py\n# run (function)\n   5 | x = 1\n".toList ∧
      stored.header path 5 ++ numberedBody 5 body =
        "# app/x.py\n   5 | # run (function)\n   6 | x = 1\n".toList := by
  decide

end ChunkLines
end Graph
end CodeSage
