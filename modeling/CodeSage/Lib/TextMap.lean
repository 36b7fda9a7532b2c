import CodeSage.Lib.TextOrder

/-!
# CodeSage.Lib.TextMap

Sets and maps of texts in the order of their texts, as lists.
-/

namespace Lib
namespace TextMap

variable {β : Type}

/-- `BTreeSet::insert` -/
def addText (text : Text) : List Text → List Text
  | [] => [text]
  | first :: rest =>
    if first = text then first :: rest
    else if textLe text first then text :: first :: rest
    else first :: addText text rest

/-- A new entry at its place. -/
def insertNew (entry : Text × β) : List (Text × β) → List (Text × β)
  | [] => [entry]
  | first :: rest => if textLe entry.1 first.1 then entry :: first :: rest else first :: insertNew entry rest

/-- The entry of a key changed, or made: `BTreeMap::entry` -/
def alter (key : Text) (f : Option β → β) (entries : List (Text × β)) : List (Text × β) :=
  if key ∈ entries.map Prod.fst then entries.map fun entry => if entry.1 = key then (key, f (some entry.2)) else entry
  else insertNew (key, f none) entries

def find (key : Text) (entries : List (Text × β)) : Option β := (entries.find? fun entry => entry.1 = key).map Prod.snd

theorem mem_addText {text t : Text} {l : List Text} : t ∈ addText text l ↔ t = text ∨ t ∈ l := by
  induction l with
  | nil => simp [addText]
  | cons first rest ih =>
    rw [addText]
    split
    · rename_i h
      subst h
      simp
    · split
      · simp
      · rw [List.mem_cons, ih, List.mem_cons]
        exact or_left_comm

theorem mem_insertNew {entry e : Text × β} {l : List (Text × β)} : e ∈ insertNew entry l ↔ e = entry ∨ e ∈ l := by
  induction l with
  | nil => simp [insertNew]
  | cons first rest ih =>
    rw [insertNew]
    split
    · simp
    · rw [List.mem_cons, ih, List.mem_cons]
      exact or_left_comm

/-- An entry is one of another key, or the one changed or made. -/
theorem mem_alter {key : Text} {f : Option β → β} {e : Text × β} {l : List (Text × β)} (h : e ∈ alter key f l) :
    e ∈ l ∧ e.1 ≠ key ∨ e.1 = key ∧ (e.2 = f none ∧ key ∉ l.map Prod.fst ∨ ∃ old, (key, old) ∈ l ∧ e.2 = f (some old)) := by
  rw [alter] at h
  split at h
  · obtain ⟨entry, hentry, heq⟩ := List.mem_map.mp h
    split at heq
    · rename_i hkey
      subst heq
      exact Or.inr ⟨rfl, Or.inr ⟨entry.2, hkey ▸ hentry, rfl⟩⟩
    · rename_i hkey
      subst heq
      exact Or.inl ⟨hentry, hkey⟩
  · rename_i hnew
    rcases mem_insertNew.mp h with rfl | hmem
    · exact Or.inr ⟨rfl, Or.inl ⟨rfl, hnew⟩⟩
    · exact Or.inl ⟨hmem, fun heq => hnew (heq ▸ List.mem_map_of_mem hmem)⟩

theorem mem_keys_alter {key k : Text} {f : Option β → β} {l : List (Text × β)} :
    k ∈ (alter key f l).map Prod.fst ↔ k = key ∨ k ∈ l.map Prod.fst := by
  rw [alter]
  split
  · rename_i hkey
    have hkeys : (l.map fun entry => if entry.1 = key then (key, f (some entry.2)) else entry).map Prod.fst = l.map Prod.fst := by
      rw [List.map_map]
      refine List.map_congr_left fun entry _ => ?_
      rw [Function.comp_apply]
      split
      · rename_i heq
        exact heq.symm
      · rfl
    rw [hkeys]
    exact (or_iff_right_of_imp fun heq => heq ▸ hkey).symm
  · simp only [List.mem_map, mem_insertNew]
    constructor
    · rintro ⟨entry, rfl | hmem, rfl⟩
      · exact Or.inl rfl
      · exact Or.inr ⟨entry, hmem, rfl⟩
    · rintro (rfl | ⟨entry, hmem, rfl⟩)
      · exact ⟨_, Or.inl rfl, rfl⟩
      · exact ⟨entry, Or.inr hmem, rfl⟩

end TextMap
end Lib
