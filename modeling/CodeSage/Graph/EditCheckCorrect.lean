import CodeSage.Graph.EditCheck
import Mathlib.Data.List.Forall2
import Mathlib.Data.List.Nodup

/-!
# CodeSage.Graph.EditCheckCorrect

When the handles of an ambiguous edit select a declaration. A handle is written with the name that was asked for and read
back as its last part, so a name that has a qualifier of its own is lost.
-/

namespace CodeSage
namespace Graph
namespace EditCheck

open Lib Protocol

section Spec

/-- A handle, given back for the same file, selects a declaration of the name that starts in its line: the only one there
if no two start in a line. -/
def Selects (tree : Tree) (file symbol : Text) (lines : List Nat) (line : Nat) (handle : Text) : Prop :=
  ∃ n, selected tree file handle none = .ok n ∧ n ∈ declarations tree.root symbol none ∧ n.startLine = line ∧
    (lines.Nodup → ∀ m ∈ declarations tree.root symbol none, m.startLine = line → m = n)

/-- The name is unqualified, its declarations start in lines of their own, and a handle can say the path and the lines. -/
structure Resolvable (root : Node) (file symbol : Text) (line : Option Nat) : Prop where
  plain : declarationName symbol = symbol
  nonempty : symbol ≠ []
  path : Handle.validPath file = true
  apart : ((declarations root symbol line).map Node.startLine).Nodup
  lines : ∀ n ∈ declarations root symbol line, n.startLine < 2 ^ 32

end Spec

section Handles

theorem parse_symbol (path qualified : Text) (line : Option UInt32) :
    Handle.parse (Handle.symbol path qualified line).toText =
      if Handle.validPath path = true ∧ qualified ≠ [] then some (.symbol path qualified line) else none := by
  have hat : (Handle.escape qualified).contains '@' = false := by
    simpa using Handle.not_mem_escape (.inr rfl) qualified
  rw [Handle.toText, Handle.parse_sym, Handle.parseSymbol,
    splitOnce_append (Handle.not_mem_escape (.inl rfl) path)]
  simp only [Option.bind_eq_bind, Option.bind_some, Handle.parseTail_text, hat]
  simp

/-- A handle is longer than the name in it. -/
theorem declarationHandle_ne (file symbol : Text) (line : Nat) : declarationHandle file symbol line ≠ symbol := by
  intro heq
  have hescape : ∀ s : Text, s.length ≤ (Handle.escape s).length := by
    intro s
    induction s with
    | nil => exact Nat.zero_le _
    | cons c s ih =>
      have hchar : 1 ≤ (Handle.escapeChar c).length := by
        rw [Handle.escapeChar.eq_def]
        split <;> simp
      rw [Handle.escape_cons, List.length_append, List.length_cons]
      omega
  have hlen := congrArg List.length heq
  have hle := hescape symbol
  simp only [declarationHandle, Handle.toText, List.length_append, List.length_cons, Handle.SYM] at hlen
  omega

/-- What a handle is read as. -/
theorem parseEditTarget_handle {file symbol : Text} {line : Nat} :
    parseEditTarget file (declarationHandle file symbol line) none =
      if Handle.validPath file = true ∧ symbol ≠ [] then
        .ok (declarationName symbol, if line < 2 ^ 32 then some line else none)
      else .ok (declarationHandle file symbol line, none) := by
  rw [parseEditTarget, declarationHandle, parse_symbol]
  by_cases hvalid : Handle.validPath file = true ∧ symbol ≠ []
  · rw [if_pos hvalid, if_pos hvalid]
    simp only [ne_eq, not_true_eq_false, if_false, Option.none_or, lineU32]
    split
    · next hlt =>
      rw [Option.map_some, UInt32.toNat_ofNat_of_lt' hlt]
    · rfl
  · rw [if_neg hvalid, if_neg hvalid]

end Handles

section Select

variable {root : Node} {file symbol : Text} {line : Option Nat}

theorem mem_declarations {n : Node} : n ∈ declarations root symbol line ↔
    n ∈ root.walk ∧ n.function = true ∧ n.name = some symbol ∧ ∀ l ∈ line, n.startLine = l := by
  rw [declarations, List.mem_filter, Bool.and_eq_true, Bool.and_eq_true, decide_eq_true_eq, Option.all_eq_true]
  simp only [and_assoc, decide_eq_true_eq, Option.mem_def]

theorem selectDeclaration_eq_ok {n : Node} :
    selectDeclaration root file symbol line = .ok n ↔ declarations root symbol line = [n] := by
  rw [selectDeclaration]
  split
  · next old hone => rw [hone, Except.ok.injEq, List.singleton_inj]
  · next hnone => simp [hnone]
  · next _ hmany _ =>
    refine ⟨nofun, fun h => (hmany n h).elim⟩

/-- A refusal as ambiguous lists the lines of several declarations, and a handle each. -/
theorem selectDeclaration_eq_ambiguous {message : String} {lines : List Nat} {handles : List Text}
    (h : selectDeclaration root file symbol line = .error (.ambiguous message lines handles)) :
    2 ≤ (declarations root symbol line).length ∧ lines = (declarations root symbol line).map Node.startLine ∧
      handles = lines.map (declarationHandle file symbol) := by
  rw [selectDeclaration] at h
  split at h
  · cases h
  · cases h
  · next hmany hempty =>
    injection h with h
    injection h with _ hlines hhandles
    subst hlines
    refine ⟨?_, rfl, hhandles.symm⟩
    rcases hcase : declarations root symbol line with _ | ⟨a, _ | ⟨b, rest⟩⟩
    · exact (hempty hcase).elim
    · exact (hmany a hcase).elim
    · simp

theorem filter_eq_singleton {α β : Type} [DecidableEq β] (f : α → β) {xs : List α} (h : (xs.map f).Nodup) {x : α}
    (hx : x ∈ xs) : xs.filter (fun y => f y = f x) = [x] := by
  induction xs with
  | nil => cases hx
  | cons a xs ih =>
    rw [List.map_cons, List.nodup_cons] at h
    rcases List.mem_cons.mp hx with rfl | hmem
    · rw [List.filter_cons_of_pos (by simp), List.filter_eq_nil_iff.mpr]
      intro y hy heq
      exact h.1 (of_decide_eq_true heq ▸ List.mem_map_of_mem hy)
    · have hne : f a ≠ f x := fun heq => h.1 (heq ▸ List.mem_map_of_mem hmem)
      rw [List.filter_cons_of_neg (by simpa using hne), ih h.2 hmem]

/-- The declarations in one line are those of all that start there. -/
theorem declarations_line {l : Nat} (hl : ∃ n ∈ declarations root symbol line, n.startLine = l) :
    declarations root symbol (some l) = (declarations root symbol line).filter fun n => n.startLine = l := by
  rw [declarations, declarations, List.filter_filter]
  refine List.filter_congr fun n _ => ?_
  cases line with
  | none => simp [Bool.and_comm]
  | some l' =>
    obtain ⟨n', hn', rfl⟩ := hl
    obtain rfl := (mem_declarations.mp hn').2.2.2 l' rfl
    by_cases hline : n.startLine = n'.startLine <;> simp [hline]

/-- The declarations of a line are among all of the name. -/
theorem declarations_subset : declarations root symbol line ⊆ declarations root symbol none := fun _ hn =>
  mem_declarations.mpr ⟨(mem_declarations.mp hn).1, (mem_declarations.mp hn).2.1, (mem_declarations.mp hn).2.2.1, nofun⟩

end Select

section Main

variable {tree : Tree} {file symbol : Text} {line : Option Nat}

/-- What a handle selects. -/
theorem selected_handle {l : Nat} (hclean : tree.hasError = false) {n : Node} :
    selected tree file (declarationHandle file symbol l) none = .ok n ↔
      if Handle.validPath file = true ∧ symbol ≠ [] then
        declarations tree.root (declarationName symbol) (if l < 2 ^ 32 then some l else none) = [n]
      else declarations tree.root (declarationHandle file symbol l) none = [n] := by
  have hsource : ∀ name line', checkSource .ok tree file name line' = .ok n ↔
      declarations tree.root name line' = [n] := by
    intro name line'
    rw [← @selectDeclaration_eq_ok _ file, checkSource, hclean, if_neg Bool.false_ne_true]
    rcases selectDeclaration tree.root file name line' with refusal | old <;> rfl
  rw [selected, checkTarget, parseEditTarget_handle]
  by_cases hvalid : Handle.validPath file = true ∧ symbol ≠ []
  · rw [if_pos hvalid, if_pos hvalid]
    exact hsource _ _
  · rw [if_neg hvalid, if_neg hvalid]
    exact hsource _ _

/-- If the handle of one of several declarations selects it, the name is plain and no other one starts in its line. -/
theorem Selects.plain (hclean : tree.hasError = false) (hmany : 2 ≤ (declarations tree.root symbol line).length)
    {lines : List Nat} {l : Nat} (hl : ∃ n ∈ declarations tree.root symbol line, n.startLine = l)
    (h : Selects tree file symbol lines l (declarationHandle file symbol l)) :
    declarationName symbol = symbol ∧ symbol ≠ [] ∧ Handle.validPath file = true ∧ l < 2 ^ 32 ∧
      ((declarations tree.root symbol line).filter fun n => n.startLine = l).length = 1 := by
  obtain ⟨n, hselected, hn, -, -⟩ := h
  have hname := (mem_declarations.mp hn).2.2.1
  rw [selected_handle hclean] at hselected
  split at hselected
  · next hvalid =>
    have hin : n ∈ declarations tree.root (declarationName symbol) (if l < 2 ^ 32 then some l else none) := by
      rw [hselected]
      exact List.mem_singleton_self n
    have hplain : declarationName symbol = symbol :=
      Option.some.inj ((mem_declarations.mp hin).2.2.1.symm.trans hname)
    rw [hplain] at hselected
    by_cases hlt : l < 2 ^ 32
    · rw [if_pos hlt, declarations_line hl] at hselected
      exact ⟨hplain, hvalid.2, hvalid.1, hlt, by rw [hselected, List.length_singleton]⟩
    · -- Without its line the handle stands for all the declarations.
      rw [if_neg hlt] at hselected
      have hsub : (declarations tree.root symbol line).length ≤ (declarations tree.root symbol none).length := by
        refine List.Sublist.length_le ?_
        have hfilter : declarations tree.root symbol line = (declarations tree.root symbol none).filter
            fun m => line.all fun line => decide (m.startLine = line) := by
          rw [declarations, declarations, List.filter_filter]
          exact List.filter_congr fun m _ => by simp [Bool.and_comm]
        rw [hfilter]
        exact List.filter_sublist
      rw [hselected, List.length_singleton] at hsub
      omega
  · have hin : n ∈ declarations tree.root (declarationHandle file symbol l) none := by
      rw [hselected]
      exact List.mem_singleton_self n
    exact (declarationHandle_ne file symbol l
      (Option.some.inj ((mem_declarations.mp hin).2.2.1.symm.trans hname))).elim

/-- The handles of an ambiguous edit select their declarations just if the name has no qualifier, its declarations start in
lines of their own, and a handle can be made of the path and the lines. -/
theorem handles_select_iff {message : String} {lines : List Nat} {handles : List Text}
    (hambiguous : checkSource .ok tree file symbol line = .error (.ambiguous message lines handles)) :
    List.Forall₂ (Selects tree file symbol lines) lines handles ↔ Resolvable tree.root file symbol line := by
  have hclean : tree.hasError = false := by
    by_contra hbad
    rw [checkSource, if_pos (eq_true_of_ne_false hbad)] at hambiguous
    cases hambiguous
  have hselect : selectDeclaration tree.root file symbol line = .error (.ambiguous message lines handles) := by
    rw [checkSource, hclean, if_neg Bool.false_ne_true] at hambiguous
    rcases hrun : selectDeclaration tree.root file symbol line with refusal | old
    · rw [hrun] at hambiguous
      exact hambiguous
    · rw [hrun] at hambiguous
      cases hambiguous
  obtain ⟨hmany, rfl, rfl⟩ := selectDeclaration_eq_ambiguous hselect
  rw [List.forall₂_map_right_iff, List.forall₂_same]
  have hexists : ∀ l ∈ (declarations tree.root symbol line).map Node.startLine,
      ∃ n ∈ declarations tree.root symbol line, n.startLine = l := fun l hl => List.mem_map.mp hl
  constructor
  · intro h
    have hall := fun l hl => (h l hl).plain hclean hmany (hexists l hl)
    obtain ⟨first, hfirst⟩ : ∃ n, n ∈ declarations tree.root symbol line :=
      List.exists_mem_of_length_pos (by omega)
    obtain ⟨hplain, hne, hpath, -, -⟩ := hall first.startLine (List.mem_map_of_mem hfirst)
    refine ⟨hplain, hne, hpath, ?_, fun n hn => (hall n.startLine (List.mem_map_of_mem hn)).2.2.2.1⟩
    refine List.nodup_iff_count_le_one.mpr fun l => ?_
    by_cases hl : l ∈ (declarations tree.root symbol line).map Node.startLine
    · have hone := (hall l hl).2.2.2.2
      rw [List.count, List.countP_map, List.countP_eq_length_filter]
      refine le_of_eq (Eq.trans (congrArg List.length (List.filter_congr fun n _ => ?_)) hone)
      rw [Bool.eq_iff_iff]
      simp
    · rw [List.count_eq_zero_of_not_mem hl]
      exact Nat.zero_le 1
  · rintro ⟨hplain, hne, hpath, hapart, hlines⟩ l hl
    obtain ⟨n, hn, rfl⟩ := hexists l hl
    have hat : (declarations tree.root symbol line).filter (fun m => m.startLine = n.startLine) = [n] :=
      filter_eq_singleton Node.startLine hapart hn
    refine ⟨n, ?_, declarations_subset hn, rfl, fun _ m hm hline => ?_⟩
    · rw [selected_handle hclean, if_pos ⟨hpath, hne⟩, if_pos (hlines n hn), hplain, declarations_line ⟨n, hn, rfl⟩, hat]
    · have hin : m ∈ declarations tree.root symbol (some n.startLine) := by
        obtain ⟨h1, h2, h3, -⟩ := mem_declarations.mp hm
        refine mem_declarations.mpr ⟨h1, h2, h3, fun l hl => ?_⟩
        rw [hline]
        exact Option.some.inj hl
      rw [declarations_line ⟨n, hn, rfl⟩, hat] at hin
      exact List.mem_singleton.mp hin

end Main

section Example

/-- The definition of a C++ function with its declared name, in a row. -/
def definitionOf (name : String) (row : Nat) : Node :=
  .mk "function_definition" [] row
    [(some "declarator", true, .mk "function_declarator" [] row
      [(some "declarator", true, .mk "qualified_identifier" name.toList row [])])]

/-- Two overloads of a member that are defined outside of their class, each in a line. -/
def outOfLine : Tree := ⟨.mk "translation_unit" [] 0 [(none, true, definitionOf "A::f" 0), (none, true, definitionOf "A::f" 1)], false⟩

/-- The same with a free function. -/
def overloads : Tree := ⟨.mk "translation_unit" [] 0 [(none, true, definitionOf "f" 0), (none, true, definitionOf "f" 1)], false⟩

theorem outOfLine_runs :
    ((declarations outOfLine.root "A::f".toList none).map Node.startLine = [1, 2] ∧
      ∀ l ∈ [1, 2], (declarations outOfLine.root (declarationName "A::f".toList) (some l)).isEmpty = true) ∧
    (declarations overloads.root "f".toList none).map Node.startLine = [1, 2] ∧
    Handle.validPath "a.cpp".toList = true ∧
    [1, 2].map (declarationHandle "a.cpp".toList "A::f".toList) =
      ["sym:a.cpp#A::f@1".toList, "sym:a.cpp#A::f@2".toList] := by
  decide

/-- Two declarations at lines of their own are refused as ambiguous. -/
theorem ambiguous_of_two {tree : Tree} {file symbol : Text} (hclean : tree.hasError = false)
    (h : (declarations tree.root symbol none).map Node.startLine = [1, 2]) :
    ∃ message, checkSource .ok tree file symbol none =
      .error (.ambiguous message [1, 2] ([1, 2].map (declarationHandle file symbol))) := by
  rcases hcase : declarations tree.root symbol none with _ | ⟨a, _ | ⟨b, rest⟩⟩
  · simp [hcase] at h
  · simp [hcase] at h
  · rw [hcase] at h
    refine ⟨ambiguousMessage symbol [1, 2] ([1, 2].map (declarationHandle file symbol)), ?_⟩
    rw [checkSource, hclean, if_neg Bool.false_ne_true, selectDeclaration, hcase]
    simp only [h]

theorem selected_handle_notFound {tree : Tree} {file symbol : Text} {l : Nat} (hclean : tree.hasError = false)
    (hvalid : Handle.validPath file = true ∧ symbol ≠ []) (hlt : l < 2 ^ 32)
    (hnone : declarations tree.root (declarationName symbol) (some l) = []) :
    selected tree file (declarationHandle file symbol l) none =
      .error (.notFound (notFoundMessage file (declarationName symbol) (some l))) := by
  rw [selected, checkTarget, parseEditTarget_handle, if_pos hvalid, if_pos hlt]
  simp only [checkSource, hclean, Bool.false_eq_true, if_false, selectDeclaration, hnone]

/-- The handles of an out-of-line member are read as its last name, which no declaration in the file has. -/
theorem out_of_line_handles_not_found : ∃ message, checkSource .ok outOfLine "a.cpp".toList "A::f".toList none =
      .error (.ambiguous message [1, 2] ["sym:a.cpp#A::f@1".toList, "sym:a.cpp#A::f@2".toList]) ∧
    ∀ handle ∈ ["sym:a.cpp#A::f@1".toList, "sym:a.cpp#A::f@2".toList],
      ∃ message, selected outOfLine "a.cpp".toList handle none = .error (.notFound message) := by
  obtain ⟨⟨hlines, hnone⟩, -, hpath, hhandles⟩ := outOfLine_runs
  obtain ⟨message, hambiguous⟩ := @ambiguous_of_two _ "a.cpp".toList _ rfl hlines
  rw [← hhandles]
  refine ⟨message, hambiguous, fun handle hmem => ?_⟩
  obtain ⟨l, hl, rfl⟩ := List.mem_map.mp hmem
  have hlt : l < 2 ^ 32 := by
    rcases List.mem_pair.mp hl with rfl | rfl <;> decide
  exact ⟨_, selected_handle_notFound rfl ⟨hpath, by decide⟩ hlt (List.isEmpty_iff.mp (hnone l hl))⟩

theorem handles_select_iff_for_overloads : ∃ message,
    checkSource .ok overloads "a.cpp".toList "f".toList none =
      .error (.ambiguous message [1, 2] ([1, 2].map (declarationHandle "a.cpp".toList "f".toList))) ∧
    (List.Forall₂ (Selects overloads "a.cpp".toList "f".toList [1, 2]) [1, 2]
        ([1, 2].map (declarationHandle "a.cpp".toList "f".toList)) ↔
      Resolvable overloads.root "a.cpp".toList "f".toList none) := by
  obtain ⟨message, hambiguous⟩ := @ambiguous_of_two _ "a.cpp".toList _ rfl outOfLine_runs.2.1
  exact ⟨message, hambiguous, handles_select_iff hambiguous⟩

end Example

end EditCheck
end Graph
end CodeSage
