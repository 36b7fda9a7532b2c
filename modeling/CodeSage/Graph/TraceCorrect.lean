import CodeSage.Graph.Trace

/-!
# CodeSage.Graph.TraceCorrect

The stacks of a printed Java exception follow the exception tree exactly when every cause nested in a
suppressed exception finds that exception's block open. A suppressed exception that prints no frame opens
none: its heading is dropped before the stacks are grouped.
-/

namespace CodeSage
namespace Graph
namespace Trace

open Lib

variable {digit : Char → Bool}

section Lines

theorem isWhitespace_tab : isWhitespace '\t' = true := by decide

/-- Tabs in front of a text are all its leading white space. -/
theorem dropWhile_tabs (n : Nat) (c : Char) (s : Text) (hc : isWhitespace c = false) :
    (tabs n ++ c :: s).dropWhile isWhitespace = c :: s := by
  induction n with
  | zero => exact List.dropWhile_cons_of_neg (by simp [hc])
  | succ n ih =>
    rw [tabs, List.replicate_succ, List.cons_append, List.dropWhile_cons_of_pos isWhitespace_tab]
    exact ih

theorem size_tabs (n : Nat) : Utf8.size (tabs n) = n := by
  induction n with
  | zero => rfl
  | succ n ih =>
    rw [tabs, List.replicate_succ, Utf8.size_cons]
    rw [tabs] at ih
    rw [ih, Nat.add_comm]
    rfl

theorem indentOf_tabs (n : Nat) (c : Char) (s : Text) (hc : isWhitespace c = false) :
    indentOf (tabs n ++ c :: s) = n := by
  rw [indentOf, dropWhile_tabs n c s hc, Utf8.size_append, size_tabs]
  omega

/-- A line that starts with another letter is no frame. -/
theorem javaFrame_tabs (n : Nat) (c : Char) (s : Text) (hc : isWhitespace c = false) (ha : c ≠ 'a') :
    javaFrame digit (tabs n ++ c :: s) = none := by
  have hprefix : (c :: s).dropPrefix? "at ".toList = none := by
    have : "at ".toList = 'a' :: 't' :: [' '] := by decide
    rw [this, List.dropPrefix?, if_neg (by simpa using ha)]
  rw [javaFrame, javaGroups, dropWhile_tabs n c s hc, hprefix]
  rfl

theorem CAUSED_BY_eq : CAUSED_BY = 'C' :: "aused by:".toList := by decide

theorem SUPPRESSED_eq : SUPPRESSED = 'S' :: "uppressed:".toList := by decide

theorem javaSep_tabs (n : Nat) (c : Char) (s : Text) (hc : isWhitespace c = false) (hC : c ≠ 'C') (hS : c ≠ 'S') :
    javaSep (tabs n ++ c :: s) = false := by
  rw [javaSep, dropWhile_tabs n c s hc, CAUSED_BY_eq, SUPPRESSED_eq, List.isPrefixOf, List.isPrefixOf,
    beq_false_of_ne (Ne.symm hC), beq_false_of_ne (Ne.symm hS)]
  rfl

end Lines

section Blocks

/-- The heading a chunk keeps of a block: none for the text before the first separator. -/
def Block.header (b : Block digit) : Option Text := if b.heading = .root then none else some b.headingLine

def Block.chunk (b : Block digit) : Chunk := ⟨b.header, if b.heading = .root then 0 else b.depth, b.lines⟩

def Block.extracted (b : Block digit) : Extracted := ⟨b.header, if b.heading = .root then 0 else b.depth, b.stack⟩

/-- A heading below the root reads as its caption. -/
theorem Block.headingLine_eq (b : Block digit) (hroot : b.heading ≠ .root) :
    ∃ c s, b.headingLine = tabs b.depth ++ c :: s ∧ isWhitespace c = false ∧ c ≠ 'a' ∧
      CAUSED_BY.isPrefixOf (c :: s) = decide (b.heading = .causedBy) ∧
      SUPPRESSED.isPrefixOf (c :: s) = decide (b.heading = .suppressed) := by
  obtain ⟨heading, depth, own⟩ := b
  cases heading with
  | root => exact absurd rfl hroot
  | causedBy =>
    refine ⟨'C', "aused by:".toList ++ [' '] ++ own.title, ?_, by decide, by decide, ?_, ?_⟩
    · simp [Block.headingLine, Heading.caption, CAUSED_BY_eq]
    · rw [List.append_assoc, ← List.cons_append, ← CAUSED_BY_eq]
      simp
    · rw [SUPPRESSED_eq]
      rfl
  | suppressed =>
    refine ⟨'S', "uppressed:".toList ++ [' '] ++ own.title, ?_, by decide, by decide, ?_, ?_⟩
    · simp [Block.headingLine, Heading.caption, SUPPRESSED_eq]
    · rw [CAUSED_BY_eq]
      rfl
    · rw [List.append_assoc, ← List.cons_append, ← SUPPRESSED_eq]
      simp

theorem Block.headingLine_root (b : Block digit) (hroot : b.heading = .root) (hdepth : b.depth = 0) :
    b.headingLine = b.own.title := by
  rw [Block.headingLine, hroot, hdepth]
  rfl

theorem Block.javaSep_headingLine (b : Block digit) (hdepth : b.heading = .root → b.depth = 0) :
    javaSep b.headingLine = decide (b.heading ≠ .root) := by
  by_cases hroot : b.heading = .root
  · rw [b.headingLine_root hroot (hdepth hroot), (b.own.plain _ List.mem_cons_self).1]
    simp [hroot]
  · obtain ⟨c, s, heq, hspace, -, hcaused, hsuppressed⟩ := b.headingLine_eq hroot
    rw [javaSep, heq, dropWhile_tabs _ c s hspace, hcaused, hsuppressed]
    cases hh : b.heading with
    | root => exact absurd hh hroot
    | causedBy => rfl
    | suppressed => rfl

theorem Block.javaFrame_headingLine (b : Block digit) (hdepth : b.heading = .root → b.depth = 0) :
    javaFrame digit b.headingLine = none := by
  by_cases hroot : b.heading = .root
  · rw [b.headingLine_root hroot (hdepth hroot)]
    exact (b.own.plain _ List.mem_cons_self).2
  · obtain ⟨c, s, heq, hspace, ha, -, -⟩ := b.headingLine_eq hroot
    rw [heq]
    exact javaFrame_tabs _ c s hspace ha

theorem Block.javaSuppressed_headingLine (b : Block digit) (hroot : b.heading ≠ .root) :
    javaSuppressed b.headingLine = decide (b.heading = .suppressed) := by
  obtain ⟨c, s, heq, hspace, -, -, hsuppressed⟩ := b.headingLine_eq hroot
  rw [javaSuppressed, heq, dropWhile_tabs _ c s hspace, hsuppressed]

theorem Block.indentOf_headingLine (b : Block digit) (hroot : b.heading ≠ .root) :
    indentOf b.headingLine = b.depth := by
  obtain ⟨c, s, heq, hspace, -⟩ := b.headingLine_eq hroot
  rw [heq, indentOf_tabs _ c s hspace]

theorem Block.frameLine_eq (b : Block digit) (f : Text) :
    tabs b.depth ++ "\tat ".toList ++ f = tabs (b.depth + 1) ++ 'a' :: ('t' :: ' ' :: f) := by
  have htext : "\tat ".toList = ['\t', 'a', 't', ' '] := by decide
  rw [htext, tabs, tabs, List.replicate_succ']
  simp

theorem Block.elidedLine_eq (b : Block digit) (s : Text) :
    tabs b.depth ++ "\t... ".toList ++ s = tabs (b.depth + 1) ++ '.' :: ('.' :: '.' :: ' ' :: s) := by
  have htext : "\t... ".toList = ['\t', '.', '.', '.', ' '] := by decide
  rw [htext, tabs, tabs, List.replicate_succ']
  simp

/-- No line after the heading starts a chunk. -/
theorem Block.javaSep_body (b : Block digit) :
    ∀ l ∈ b.own.message ++ b.frameLines ++ b.elidedLines, javaSep l = false := by
  intro l hl
  rcases List.mem_append.mp hl with hl | hl
  · rcases List.mem_append.mp hl with hl | hl
    · exact (b.own.plain l (List.mem_cons_of_mem _ hl)).1
    · obtain ⟨f, -, rfl⟩ := List.mem_map.mp hl
      rw [b.frameLine_eq]
      exact javaSep_tabs _ 'a' _ (by decide) (by decide) (by decide)
  · rw [Block.elidedLines] at hl
    split at hl
    · cases hl
    · rw [List.mem_singleton.mp hl, List.append_assoc, b.elidedLine_eq]
      exact javaSep_tabs _ '.' _ (by decide) (by decide) (by decide)

theorem Block.extractJava_lines (b : Block digit) (hdepth : b.heading = .root → b.depth = 0) :
    extractJava digit b.lines = b.stack := by
  have hmessage : b.own.message.filterMap (javaFrame digit) = [] :=
    List.filterMap_eq_nil_iff.mpr fun l hl => (b.own.plain l (List.mem_cons_of_mem _ hl)).2
  have helided : b.elidedLines.filterMap (javaFrame digit) = [] := by
    refine List.filterMap_eq_nil_iff.mpr fun l hl => ?_
    rw [Block.elidedLines] at hl
    split at hl
    · cases hl
    · rw [List.mem_singleton.mp hl, List.append_assoc, b.elidedLine_eq]
      exact javaFrame_tabs _ '.' _ (by decide) (by decide)
  rw [extractJava, Block.lines, List.filterMap_cons_none (b.javaFrame_headingLine hdepth), List.filterMap_append,
    List.filterMap_append, hmessage, helided, List.nil_append, List.append_nil, Block.stack]

theorem foldl_splitLine_body (lines : List Text) (h : ∀ l ∈ lines, javaSep l = false) (done : List Chunk)
    (last : Chunk) :
    lines.foldl (splitLine javaSep) (done, last) = (done, { last with lines := last.lines ++ lines }) := by
  induction lines generalizing last with
  | nil => simp
  | cons l lines ih =>
    rw [List.foldl_cons, splitLine, if_neg (by simp [h l List.mem_cons_self]),
      ih fun m hm => h m (List.mem_cons_of_mem _ hm)]
    simp

/-- The lines of a block below the root become a chunk of their own. -/
theorem foldl_splitLine_block (b : Block digit) (hroot : b.heading ≠ .root) (done : List Chunk) (last : Chunk) :
    b.lines.foldl (splitLine javaSep) (done, last) = (done ++ [last], b.chunk) := by
  have hsep : javaSep b.headingLine = true := by
    rw [b.javaSep_headingLine fun h => absurd h hroot]
    simpa using hroot
  rw [Block.lines, List.foldl_cons, splitLine, if_pos hsep, foldl_splitLine_body _ b.javaSep_body,
    b.indentOf_headingLine hroot, Block.chunk, Block.header, if_neg hroot, if_neg hroot]
  rfl

theorem foldl_splitLine_root (b : Block digit) (hroot : b.heading = .root) (hdepth : b.depth = 0) :
    b.lines.foldl (splitLine javaSep) ([], ⟨none, 0, []⟩) = ([], b.chunk) := by
  have hlines : ∀ l ∈ b.lines, javaSep l = false := by
    intro l hl
    rcases List.mem_cons.mp hl with rfl | hl
    · rw [b.javaSep_headingLine fun _ => hdepth]
      simpa using hroot
    · exact b.javaSep_body l hl
  rw [foldl_splitLine_body _ hlines, Block.chunk, Block.header, if_pos hroot, if_pos hroot]
  rfl

theorem foldl_splitLine_blocks (bs : List (Block digit)) (h : ∀ b ∈ bs, b.heading ≠ .root) (done : List Chunk)
    (last : Chunk) :
    let state := (bs.flatMap Block.lines).foldl (splitLine javaSep) (done, last)
    state.1 ++ [state.2] = done ++ last :: bs.map Block.chunk := by
  induction bs generalizing done last with
  | nil => rfl
  | cons b bs ih =>
    rw [List.flatMap_cons, List.foldl_append, foldl_splitLine_block b (h b List.mem_cons_self)]
    have := ih (fun c hc => h c (List.mem_cons_of_mem _ hc)) (done ++ [last]) b.chunk
    simpa using this

/-- A printed list of blocks splits into these blocks. -/
theorem splitStacks_lines (root : Block digit) (bs : List (Block digit)) (hroot : root.heading = .root)
    (hdepth : root.depth = 0) (h : ∀ b ∈ bs, b.heading ≠ .root) :
    splitStacks ((root :: bs).flatMap Block.lines) (some javaSep) = (root :: bs).map Block.chunk := by
  rw [splitStacks, List.flatMap_cons, List.foldl_append, foldl_splitLine_root root hroot hdepth]
  exact foldl_splitLine_blocks bs h [] root.chunk

theorem Block.extractChunk_chunk (b : Block digit) (hdepth : b.heading = .root → b.depth = 0) :
    extractChunk (java digit) b.chunk = b.extracted := by
  have hframes : (java digit).extract b.chunk.lines = b.stack := b.extractJava_lines hdepth
  rw [extractChunk, hframes]
  rfl

/-- The stacks that are grouped: the blocks that print a frame. -/
theorem framedStacks_lines (root : Block digit) (bs : List (Block digit)) (hroot : root.heading = .root)
    (hdepth : root.depth = 0) (h : ∀ b ∈ bs, b.heading ≠ .root) :
    framedStacks (java digit) ((root :: bs).flatMap Block.lines) =
      ((root :: bs).filter Block.bears).map Block.extracted := by
  have hsplit : splitStacks ((root :: bs).flatMap Block.lines) (java digit).separator = (root :: bs).map Block.chunk :=
    splitStacks_lines root bs hroot hdepth h
  have hextract : ((root :: bs).map Block.chunk).map (extractChunk (java digit)) =
      (root :: bs).map Block.extracted := by
    rw [List.map_map]
    refine List.map_congr_left fun b hb => b.extractChunk_chunk fun hb' => ?_
    rcases List.mem_cons.mp hb with rfl | hmem
    · exact hdepth
    · exact absurd hb' (h b hmem)
  rw [framedStacks, hsplit, hextract, List.filter_map]
  rfl

end Blocks

section Grouping

/-- The block opens a suppressed block. -/
def Block.opens (b : Block digit) : Bool := decide (b.heading = .suppressed)

/-- Every cause below depth 0 has a heading `Suppressed:` before it that is no deeper, with nothing shallower
than that heading in between. -/
def Opened (bs : List (Block digit)) : Prop :=
  ∀ pre b post, bs = pre ++ b :: post → b.heading = .causedBy → 0 < b.depth →
    ∃ before s mid, pre = before ++ s :: mid ∧ s.heading = .suppressed ∧ s.depth ≤ b.depth ∧
      ∀ x ∈ mid, s.depth ≤ x.depth

/-- The block belongs to the primary cause chain. -/
def Block.primary (b : Block digit) : Bool := decide (b.heading ≠ .suppressed) && decide (b.depth = 0)

/-- What a printed list of blocks satisfies: the root stands first, and a suppressed block is indented. -/
structure Laid (bs : List (Block digit)) : Prop where
  tail : ∀ b ∈ bs.tail, b.heading ≠ .root
  root : ∀ b ∈ bs, b.heading = .root → b.depth = 0
  suppressed : ∀ b ∈ bs, b.heading = .suppressed → 0 < b.depth

theorem Laid.init {bs : List (Block digit)} {b : Block digit} (h : Laid (bs ++ [b])) : Laid bs := by
  refine ⟨fun x hx => h.tail x ?_, fun x hx => h.root x (List.mem_append_left _ hx),
    fun x hx => h.suppressed x (List.mem_append_left _ hx)⟩
  cases bs with
  | nil => cases hx
  | cons a bs => exact List.mem_append_left _ hx

theorem Laid.last_root {bs : List (Block digit)} {b : Block digit} (h : Laid (bs ++ [b])) (hroot : b.heading = .root) :
    bs = [] := by
  cases bs with
  | nil => rfl
  | cons a bs => exact absurd hroot (h.tail b (List.mem_append_right _ List.mem_cons_self))

/-- The blocks whose stack the loop puts beside the chain, after the blocks `pre`. -/
def Beside (pre : List (Block digit)) (b : Block digit) : Prop :=
  b.heading = .suppressed ∨ (Outline.openAfter Block.depth Block.opens pre).dropWhile (b.depth < ·) ≠ []

instance (pre : List (Block digit)) (b : Block digit) : Decidable (Beside pre b) :=
  inferInstanceAs (Decidable (_ ∨ _))

theorem groupStack_extracted (g : Grouped) (pre : List (Block digit)) (b : Block digit)
    (hblocks : g.blocks = Outline.openAfter Block.depth Block.opens pre) (hroot : b.heading = .root → pre = []) :
    groupStack g b.extracted =
      ⟨g.chain ++ (if Beside pre b then [] else [b.stack]), g.side ++ (if Beside pre b then [b.stack] else []),
        Outline.openAfter Block.depth Block.opens (pre ++ [b])⟩ := by
  have hbeside : Beside pre b ↔ b.heading = .suppressed ∨ g.blocks.dropWhile (b.depth < ·) ≠ [] := by
    rw [Beside, hblocks]
  rw [Outline.openAfter_concat, Outline.openStep, ← hblocks]
  by_cases hr : b.heading = .root
  · have hnil : g.blocks = [] := by
      rw [hblocks, hroot hr]
      rfl
    have hopens : b.opens = false := by simp [Block.opens, hr]
    rw [groupStack, Block.extracted, Block.header, if_pos hr, hnil]
    simp [hbeside, hopens, hr, hnil]
  · rw [groupStack, Block.extracted, Block.header, if_neg hr, if_neg hr]
    by_cases hs : b.heading = .suppressed
    · have hopens : b.opens = true := by simp [Block.opens, hs]
      simp [hbeside, b.javaSuppressed_headingLine hr, hs, hopens]
    · have hopens : b.opens = false := by simp [Block.opens, hs]
      by_cases hopen : g.blocks.dropWhile (b.depth < ·) = []
      · simp [hbeside, b.javaSuppressed_headingLine hr, hs, hopens, hopen]
      · simp [hbeside, b.javaSuppressed_headingLine hr, hs, hopens, hopen]

theorem blocks_groupStacks (bs : List (Block digit)) (h : Laid bs) :
    (groupStacks (bs.map Block.extracted)).blocks = Outline.openAfter Block.depth Block.opens bs := by
  induction bs using List.reverseRecOn with
  | nil => rfl
  | append_singleton bs b ih =>
    rw [groupStacks, List.map_append, List.foldl_append, List.map_singleton, List.foldl_cons, List.foldl_nil]
    exact congrArg Grouped.blocks (groupStack_extracted _ bs b (ih h.init) h.last_root)

/-- One more block. -/
theorem groupStacks_concat (bs : List (Block digit)) (b : Block digit) (h : Laid (bs ++ [b])) :
    groupStacks ((bs ++ [b]).map Block.extracted) =
      ⟨(groupStacks (bs.map Block.extracted)).chain ++ (if Beside bs b then [] else [b.stack]),
        (groupStacks (bs.map Block.extracted)).side ++ (if Beside bs b then [b.stack] else []),
        Outline.openAfter Block.depth Block.opens (bs ++ [b])⟩ := by
  rw [groupStacks, List.map_append, List.foldl_append, List.map_singleton, List.foldl_cons, List.foldl_nil]
  exact groupStack_extracted _ bs b (blocks_groupStacks bs h.init) h.last_root

/-- Nothing at depth 0 stands in an open block. -/
theorem not_beside_of_primary {bs : List (Block digit)} {b : Block digit} (h : Laid (bs ++ [b]))
    (hprimary : b.primary = true) : ¬Beside bs b := by
  simp only [Block.primary, Bool.and_eq_true, decide_eq_true_eq] at hprimary
  rintro (hs | hopen)
  · exact hprimary.1 hs
  · obtain ⟨pre, s, mid, rfl, hopens, hle, -⟩ := (Outline.enclosed_iff Block.depth Block.opens bs b.depth).mp hopen
    have hs : s.heading = .suppressed := by simpa [Block.opens] using hopens
    have := h.suppressed s (by simp) hs
    omega

/-- The chain has every stack of the primary chain. -/
theorem length_primary_le (bs : List (Block digit)) (h : Laid bs) :
    (bs.filter Block.primary).length ≤ (groupStacks (bs.map Block.extracted)).chain.length := by
  induction bs using List.reverseRecOn with
  | nil => exact Nat.le_refl _
  | append_singleton bs b ih =>
    have hle := ih h.init
    rw [groupStacks_concat bs b h, List.filter_append, List.length_append, List.length_append]
    cases hprimary : b.primary with
    | false =>
      rw [List.filter_cons_of_neg (by simp [hprimary]), List.filter_nil, List.length_nil]
      omega
    | true =>
      rw [List.filter_cons_of_pos hprimary, List.filter_nil, if_neg (not_beside_of_primary h hprimary)]
      exact Nat.add_le_add_right hle 1

theorem opened_concat (bs : List (Block digit)) (b : Block digit) :
    Opened (bs ++ [b]) ↔ Opened bs ∧ (b.heading = .causedBy → 0 < b.depth → Beside bs b) := by
  have hbeside : b.heading = .causedBy → (Beside bs b ↔ ∃ before s mid, bs = before ++ s :: mid ∧
      s.heading = .suppressed ∧ s.depth ≤ b.depth ∧ ∀ x ∈ mid, s.depth ≤ x.depth) := by
    intro hcause
    rw [Beside, Outline.enclosed_iff, hcause]
    simp [Block.opens]
  constructor
  · intro h
    refine ⟨fun pre c post hsplit => h pre c (post ++ [b]) (by simp [hsplit]), fun hcause hdepth => ?_⟩
    exact (hbeside hcause).mpr (h bs b [] rfl hcause hdepth)
  · rintro ⟨hopened, hlast⟩ pre c post hsplit hcause hdepth
    rcases List.eq_nil_or_concat' post with rfl | ⟨post, z, rfl⟩
    · obtain ⟨rfl, rfl⟩ := List.append_singleton_inj.mp hsplit
      exact (hbeside hcause).mp (hlast hcause hdepth)
    · rw [← List.cons_append, ← List.append_assoc] at hsplit
      obtain ⟨rfl, rfl⟩ := List.append_singleton_inj.mp hsplit
      exact hopened pre c post rfl hcause hdepth

/-- Off the primary chain there are the suppressed blocks and the causes that are indented. -/
theorem not_primary_iff {bs : List (Block digit)} {b : Block digit} (h : Laid bs) (hb : b ∈ bs) :
    b.primary = false ↔ b.heading = .suppressed ∨ (b.heading = .causedBy ∧ 0 < b.depth) := by
  have hroot := h.root b hb
  cases hh : b.heading with
  | root => simp [Block.primary, hh, hroot hh]
  | causedBy => simp [Block.primary, hh, Nat.pos_iff_ne_zero]
  | suppressed => simp [Block.primary, hh]

/-- Where every nested cause finds an open block, the loop tells the two kinds of stacks apart. -/
theorem groupStacks_of_opened (bs : List (Block digit)) (h : Laid bs) (hopened : Opened bs) :
    (groupStacks (bs.map Block.extracted)).chain = (bs.filter Block.primary).map Block.stack ∧
      (groupStacks (bs.map Block.extracted)).side = (bs.filter fun b => !b.primary).map Block.stack := by
  induction bs using List.reverseRecOn with
  | nil => exact ⟨rfl, rfl⟩
  | append_singleton bs b ih =>
    obtain ⟨hbs, hb⟩ := (opened_concat bs b).mp hopened
    obtain ⟨hchain, hside⟩ := ih h.init hbs
    rw [groupStacks_concat bs b h, hchain, hside, List.filter_append, List.filter_append, List.map_append,
      List.map_append]
    cases hprimary : b.primary with
    | true =>
      have hnot := not_beside_of_primary h hprimary
      simp [hprimary, hnot]
    | false =>
      have hbeside : Beside bs b := by
        rcases (not_primary_iff h (by simp)).mp hprimary with hs | ⟨hcause, hdepth⟩
        · exact Or.inl hs
        · exact hb hcause hdepth
      simp [hprimary, hbeside]

/-- A nested cause that finds no open block makes the chain too long. -/
theorem opened_of_chain (bs : List (Block digit)) (h : Laid bs)
    (hchain : (groupStacks (bs.map Block.extracted)).chain = (bs.filter Block.primary).map Block.stack) :
    Opened bs := by
  induction bs using List.reverseRecOn with
  | nil =>
    intro pre b post hsplit
    simp at hsplit
  | append_singleton bs b ih =>
    have hle := length_primary_le bs h.init
    rw [groupStacks_concat bs b h, List.filter_append, List.map_append] at hchain
    rw [opened_concat]
    cases hprimary : b.primary with
    | true =>
      rw [List.filter_cons_of_pos hprimary, if_neg (not_beside_of_primary h hprimary)] at hchain
      refine ⟨ih h.init (List.append_cancel_right hchain), fun hcause hdepth => ?_⟩
      have := (not_primary_iff h (by simp)).mpr (Or.inr ⟨hcause, hdepth⟩)
      rw [hprimary] at this
      cases this
    | false =>
      rw [List.filter_cons_of_neg (by simp [hprimary]), List.filter_nil, List.map_nil, List.append_nil] at hchain
      by_cases hbeside : Beside bs b
      · rw [if_pos hbeside, List.append_nil] at hchain
        exact ⟨ih h.init hchain, fun _ _ => hbeside⟩
      · have hlength := congrArg List.length hchain
        rw [if_neg hbeside, List.length_append, List.length_map, List.length_singleton] at hlength
        omega

end Grouping

section Tree

/-- What stands below the heading of an exception printed at depth `d`. -/
structure Block.Below (d : Nat) (b : Block digit) : Prop where
  depth : d ≤ b.depth
  heading : b.heading ≠ .root
  suppressed : b.heading = .suppressed → d < b.depth

theorem Block.Below.mono {d : Nat} {b : Block digit} (h : b.Below (d + 1)) : b.Below d :=
  ⟨Nat.le_of_succ_le h.depth, h.heading, fun hs => Nat.lt_of_succ_lt (h.suppressed hs)⟩

mutual

theorem blocks_below : ∀ (t : Thrown digit) (heading : Heading) (d : Nat),
    ∃ own bs, t.blocks heading d = ⟨heading, d, own⟩ :: bs ∧ ∀ b ∈ bs, b.Below d
  | .mk own suppressed cause, heading, d => by
    refine ⟨own, suppressedBlocks (d + 1) suppressed ++ causeBlocks d cause, by rw [Thrown.blocks], fun b hb => ?_⟩
    rcases List.mem_append.mp hb with hb | hb
    · exact suppressedBlocks_below suppressed d b hb
    · exact causeBlocks_below cause d b hb

theorem suppressedBlocks_below : ∀ (ts : List (Thrown digit)) (d : Nat), ∀ b ∈ suppressedBlocks (d + 1) ts, b.Below d
  | [], d, b, hb => by simp [suppressedBlocks] at hb
  | t :: ts, d, b, hb => by
    rw [suppressedBlocks] at hb
    rcases List.mem_append.mp hb with hb | hb
    · obtain ⟨own, bs, heq, hbelow⟩ := blocks_below t .suppressed (d + 1)
      rw [heq] at hb
      rcases List.mem_cons.mp hb with rfl | hb
      · exact ⟨Nat.le_succ d, by simp, fun _ => Nat.lt_succ_self d⟩
      · exact (hbelow b hb).mono
    · exact suppressedBlocks_below ts d b hb

theorem causeBlocks_below : ∀ (cause : Option (Thrown digit)) (d : Nat), ∀ b ∈ causeBlocks d cause, b.Below d
  | none, d, b, hb => by simp [causeBlocks] at hb
  | some t, d, b, hb => by
    rw [causeBlocks] at hb
    obtain ⟨own, bs, heq, hbelow⟩ := blocks_below t .causedBy d
    rw [heq] at hb
    rcases List.mem_cons.mp hb with rfl | hb
    · exact ⟨Nat.le_refl d, by simp, fun hs => by cases hs⟩
    · exact hbelow b hb

end

/-- Everything a suppressed exception prints is off the primary chain. -/
theorem not_primary_of_suppressedBlocks (ts : List (Thrown digit)) :
    ∀ b ∈ suppressedBlocks 1 ts, b.primary = false := by
  suffices h : ∀ b ∈ suppressedBlocks 1 ts, 1 ≤ b.depth by
    intro b hb
    have := h b hb
    simp only [Block.primary, Bool.and_eq_false_iff, decide_eq_false_iff_not]
    omega
  induction ts with
  | nil =>
    intro b hb
    simp [suppressedBlocks] at hb
  | cons t ts ih =>
    intro b hb
    rw [suppressedBlocks] at hb
    rcases List.mem_append.mp hb with hb | hb
    · obtain ⟨own, bs, heq, hbelow⟩ := blocks_below t .suppressed 1
      rw [heq] at hb
      rcases List.mem_cons.mp hb with rfl | hb
      · exact Nat.le_refl 1
      · exact (hbelow b hb).depth
    · exact ih b hb

/-- The primary blocks of a print are the exception and its causes, the other ones what is suppressed. -/
theorem filter_primary_blocks : ∀ (t : Thrown digit) (heading : Heading), heading ≠ .suppressed →
    (t.blocks heading 0).filter Block.primary = t.causes heading ∧
      ((t.blocks heading 0).filter fun b => !b.primary) = t.nested
  | .mk own suppressed cause, heading, hheading => by
    have hhead : Block.primary (⟨heading, 0, own⟩ : Block digit) = true := by simp [Block.primary, hheading]
    have hoff := not_primary_of_suppressedBlocks suppressed
    have hnone : (suppressedBlocks 1 suppressed).filter Block.primary = [] :=
      List.filter_eq_nil_iff.mpr fun b hb => by simp [hoff b hb]
    have hall : ((suppressedBlocks 1 suppressed).filter fun b => !b.primary) = suppressedBlocks 1 suppressed :=
      List.filter_eq_self.mpr fun b hb => by simp [hoff b hb]
    rw [Thrown.blocks, List.filter_cons_of_pos hhead, List.filter_cons_of_neg (by simp [hhead]), List.filter_append,
      List.filter_append, hnone, hall]
    match cause with
    | none =>
      rw [causeBlocks, Thrown.causes, Thrown.nested]
      simp
    | some t =>
      obtain ⟨hcauses, hnested⟩ := filter_primary_blocks t .causedBy (by simp)
      rw [causeBlocks, Thrown.causes, Thrown.nested, hcauses, hnested]
      exact ⟨rfl, rfl⟩

theorem printed_laid (t : Thrown digit) : Laid (t.printed.filter Block.bears) := by
  obtain ⟨own, bs, heq, hbelow⟩ := blocks_below t .root 0
  rw [Thrown.printed, heq]
  refine ⟨fun b hb => ?_, fun b hb hroot => ?_, fun b hb hs => ?_⟩
  · rw [List.filter_cons] at hb
    have hmem : b ∈ bs.filter Block.bears := by
      split at hb
      · exact hb
      · exact List.mem_of_mem_tail hb
    exact (hbelow b (List.mem_filter.mp hmem).1).heading
  · rcases List.mem_cons.mp (List.mem_filter.mp hb).1 with rfl | hmem
    · rfl
    · exact absurd hroot (hbelow b hmem).heading
  · rcases List.mem_cons.mp (List.mem_filter.mp hb).1 with rfl | hmem
    · cases hs
    · exact (hbelow b hmem).suppressed hs

theorem framedStacks_printStackTrace (t : Thrown digit) :
    framedStacks (java digit) t.printStackTrace = (t.printed.filter Block.bears).map Block.extracted := by
  obtain ⟨own, bs, heq, hbelow⟩ := blocks_below t .root 0
  rw [Thrown.printStackTrace, Thrown.printed, heq]
  exact framedStacks_lines _ bs rfl rfl fun b hb => (hbelow b hb).heading

end Tree

/-- The primary cause chain that the loop of `parse_with` builds. -/
def primaryChain (digit : Char → Bool) (lines : List Text) : List Stack := (groupStacks (framedStacks (java digit) lines)).chain

/-- The parse of a printed exception follows its tree: the primary chain, deepest cause first, then what is
nested in suppressed exceptions as it prints; and nothing else is put on the primary chain. -/
def FollowsTree (t : Thrown digit) : Prop :=
  (parseWith (java digit) t.printStackTrace).stacks = t.primaryStacks.reverse ++ t.nestedStacks ∧
    primaryChain digit t.printStackTrace = t.primaryStacks

/-- The exact condition: of the blocks that print frames, every cause nested in a suppressed exception comes
after a heading `Suppressed:` no deeper than itself, with nothing shallower than that heading in between. -/
theorem followsTree_iff (t : Thrown digit) : FollowsTree t ↔ Opened (t.printed.filter Block.bears) := by
  obtain ⟨hcauses, hnested⟩ := filter_primary_blocks t .root (by simp)
  have hprimary : ((t.printed.filter Block.bears).filter Block.primary).map Block.stack = t.primaryStacks := by
    rw [List.filter_comm, Thrown.printed, hcauses]
    rfl
  have hside : ((t.printed.filter Block.bears).filter fun b => !b.primary).map Block.stack = t.nestedStacks := by
    rw [List.filter_comm, Thrown.printed, hnested]
    rfl
  rw [FollowsTree, primaryChain, framedStacks_printStackTrace]
  constructor
  · rintro ⟨-, hchain⟩
    exact opened_of_chain _ (printed_laid t) (hchain.trans hprimary.symm)
  · intro hopened
    obtain ⟨hchain, hbeside⟩ := groupStacks_of_opened _ (printed_laid t) hopened
    refine ⟨?_, hchain.trans hprimary⟩
    have hparse : (parseWith (java digit) t.printStackTrace).stacks =
        (groupStacks (framedStacks (java digit) t.printStackTrace)).chain.reverse ++
          (groupStacks (framedStacks (java digit) t.printStackTrace)).side := rfl
    rw [hparse, framedStacks_printStackTrace, hchain, hbeside, hprimary, hside]

/-- An exception whose `toString` is one plain line. -/
def ownOf (title : String) (frames : List String) (elided : Nat)
    (h : ∀ l ∈ [title.toList], javaSep l = false ∧ javaFrame Char.isDigit l = none) : Own Char.isDigit :=
  ⟨title.toList, [], frames.map String.toList, elided, h⟩

/-- A suppressed exception that elides all its frames, with a cause that prints one. -/
def failedClose : Thrown Char.isDigit :=
  .mk (ownOf "java.io.IOException: write" ["app.Job.run(Job.java:20)"] 0 (by decide))
    [.mk (ownOf "java.io.IOException: close" [] 1 (by decide)) []
      (some (.mk (ownOf "java.net.SocketException: reset" ["app.Net.close(Net.java:7)"] 0 (by decide)) [] none))]
    none

/-- The nested cause comes out first, as the root cause. -/
theorem nested_cause_heads_the_trace : ¬FollowsTree failedClose ∧
    ((parseWith (java Char.isDigit) failedClose.printStackTrace).stacks.map fun s => s.map (·.function)) =
      [[some "app.Net.close".toList], [some "app.Job.run".toList]] := by
  have hstacks : ((parseWith (java Char.isDigit) failedClose.printStackTrace).stacks.map fun s => s.map (·.function)) =
      [[some "app.Net.close".toList], [some "app.Job.run".toList]] := by
    decide
  have hspec : (failedClose.primaryStacks.reverse ++ failedClose.nestedStacks).map (fun s => s.map (·.function)) =
      [[some "app.Job.run".toList], [some "app.Net.close".toList]] := by
    decide
  refine ⟨fun h => ?_, hstacks⟩
  rw [h.1, hspec] at hstacks
  exact absurd hstacks (by decide)

end Trace
end Graph
end CodeSage
