import CodeSage.Lib.Text
import CodeSage.Lib.Utf8

/-!
# CodeSage.Lib.Json

JSON values as `serde_json` keeps them: the members of an object stand in the order they were put in. A value is
rendered without white space, and `size` is the length of that text in bytes.
-/

namespace Lib

/-- A whole number, or another one by the text it prints as. -/
inductive Number where
  | nat (n : Nat)
  | other (printed : Text)
deriving DecidableEq, Repr

inductive Json where
  | null
  | bool (b : Bool)
  | num (n : Number)
  | str (s : Text)
  | arr (rows : List Json)
  | obj (members : List (Text × Json))
deriving Repr

namespace Json

abbrev Members := List (Text × Json)

def isObject : Json → Bool
  | .obj _ => true
  | _ => false

def isString : Json → Bool
  | .str _ => true
  | _ => false

def isArray : Json → Bool
  | .arr _ => true
  | _ => false

def asStr : Json → Option Text
  | .str s => some s
  | _ => none

def asArray : Json → Option (List Json)
  | .arr rows => some rows
  | _ => none

def asNat : Json → Option Nat
  | .num (.nat n) => some n
  | _ => none

/-- Induction over values, with the hypothesis for every row and every member. -/
theorem ind {p : Json → Prop} (null : p .null) (bool : ∀ b, p (.bool b)) (num : ∀ n, p (.num n)) (str : ∀ s, p (.str s))
    (arr : ∀ rows, (∀ row ∈ rows, p row) → p (.arr rows))
    (obj : ∀ members : Members, (∀ member ∈ members, p member.2) → p (.obj members)) (value : Json) : p value :=
  @Json.rec p (fun rows => ∀ row ∈ rows, p row) (fun members => ∀ member ∈ members, p member.2) (fun member => p member.2)
    null bool num str arr obj nofun
    (fun _ _ hrow hrows => List.forall_mem_cons.mpr ⟨hrow, hrows⟩) nofun
    (fun _ _ hmember hmembers => List.forall_mem_cons.mpr ⟨hmember, hmembers⟩) (fun _ _ hvalue => hvalue) value

section Render

/-- `\u00XX` for a control character without an escape of its own -/
def controlEscape (c : Char) : Text :=
  ['\\', 'u', '0', '0', Nat.digitChar (c.toNat / 16), Nat.digitChar (c.toNat % 16)]

def escapeChar (c : Char) : Text :=
  if c = '"' then ['\\', '"']
  else if c = '\\' then ['\\', '\\']
  else if c.toNat = 0x08 then ['\\', 'b']
  else if c = '\t' then ['\\', 't']
  else if c = '\n' then ['\\', 'n']
  else if c.toNat = 0x0C then ['\\', 'f']
  else if c = '\r' then ['\\', 'r']
  else if c.toNat < 0x20 then controlEscape c
  else [c]

def quote (s : Text) : Text := '"' :: s.flatMap escapeChar ++ ['"']

def renderNumber : Number → Text
  | .nat n => decimal n
  | .other printed => printed

mutual

/-- `Value::to_string` -/
def render : Json → Text
  | .null => "null".toList
  | .bool b => if b then "true".toList else "false".toList
  | .num n => renderNumber n
  | .str s => quote s
  | .arr rows => '[' :: (renderRows rows).drop 1 ++ [']']
  | .obj members => '\x7b' :: (renderMembers members).drop 1 ++ ['\x7d']
termination_by structural value => value

/-- The rows, each behind a comma. -/
def renderRows : List Json → Text
  | [] => []
  | row :: rows => ',' :: render row ++ renderRows rows
termination_by structural rows => rows

def renderMembers : List (Text × Json) → Text
  | [] => []
  | (key, value) :: members => ',' :: quote key ++ ':' :: render value ++ renderMembers members
termination_by structural members => members

end

/-- `value.to_string().len()` -/
def size (value : Json) : Nat := Utf8.size value.render

/-- The bytes of an object's members, each with a comma. -/
def membersSize (members : Members) : Nat := Utf8.size (renderMembers members)

/-- The bytes of a member's key, quoted, with its comma and its colon. -/
def keySize (key : Text) : Nat := Utf8.size (quote key) + 2

end Render

section Members

variable {members : Members} {key : Text}

/-- `Map::get` -/
def lookup (key : Text) : Members → Option Json
  | [] => none
  | (k, value) :: members => if k = key then some value else lookup key members

/-- `Map::insert`: in place of the member that is there, else at the end -/
def insert (key : Text) (value : Json) : Members → Members
  | [] => [(key, value)]
  | (k, old) :: members => if k = key then (key, value) :: members else (k, old) :: insert key value members

/-- `Map::remove`: the last member takes the place of the one removed -/
def swapRemove (key : Text) : Members → Members
  | [] => []
  | (k, old) :: members =>
    if k = key then
      match members.getLast? with
      | none => []
      | some last => last :: members.dropLast
    else (k, old) :: swapRemove key members

/-- `value.get(key)` -/
def get (value : Json) (key : Text) : Option Json :=
  match value with
  | .obj members => lookup key members
  | _ => none

/-- `value[a][b] = new`: what is absent or `null` becomes an object on the way; `none` where indexing panics -/
def assign : List Text → Json → Json → Option Json
  | [], new, _ => some new
  | key :: keys, new, .obj members =>
    (assign keys new ((lookup key members).getD .null)).map fun child => .obj (insert key child members)
  | key :: keys, new, .null => (assign keys new .null).map fun child => .obj [(key, child)]
  | _ :: _, _, _ => none

/-- What is found by these keys, one inside the other. -/
def getIn : List Text → Json → Option Json
  | [], value => some value
  | key :: keys, value => (value.get key).bind (getIn keys)

mutual

/-- Equality of values: the order of an object's members does not matter. -/
def same : Json → Json → Bool
  | .null, .null => true
  | .bool a, .bool b => a == b
  | .num a, .num b => a == b
  | .str a, .str b => a == b
  | .arr a, .arr b => sameRows a b
  | .obj a, .obj b => a.length == b.length && sameMembers a b
  | _, _ => false
termination_by structural value => value

def sameRows : List Json → List Json → Bool
  | [], [] => true
  | a :: as, b :: bs => same a b && sameRows as bs
  | _, _ => false
termination_by structural rows => rows

def sameMembers : List (Text × Json) → Members → Bool
  | [], _ => true
  | (key, a) :: as, members => (lookup key members).any (same a) && sameMembers as members
termination_by structural members => members

end

mutual

/-- The keys of every object are different, as in every map. -/
def distinct : Json → Bool
  | .arr rows => distinctRows rows
  | .obj members => decide (members.map Prod.fst).Nodup && distinctMembers members
  | _ => true
termination_by structural value => value

def distinctRows : List Json → Bool
  | [] => true
  | row :: rows => distinct row && distinctRows rows
termination_by structural rows => rows

def distinctMembers : List (Text × Json) → Bool
  | [] => true
  | (_, value) :: members => distinct value && distinctMembers members
termination_by structural members => members

end

theorem lookup_insert (value : Json) (k : Text) : lookup k (insert key value members) = if k = key then some value else lookup k members := by
  induction members with
  | nil =>
    by_cases h : k = key
    · simp [insert, lookup, h]
    · simp [insert, lookup, h, Ne.symm h]
  | cons member members ih =>
    obtain ⟨first, old⟩ := member
    rw [insert]
    by_cases hfirst : first = key
    · subst hfirst
      by_cases h : k = first
      · simp [lookup, h]
      · simp [lookup, h, Ne.symm h]
    · rw [if_neg hfirst, lookup, ih, lookup]
      by_cases h : k = key
      · have hne : first ≠ k := fun heq => hfirst (heq.trans h)
        simp [h, hfirst]
      · simp [h]

theorem insert_ne_nil (value : Json) : insert key value members ≠ [] := by
  cases members with
  | nil => simp [insert]
  | cons member members =>
    rw [insert]
    split <;> simp

theorem mem_of_lookup {value : Json} (h : lookup key members = some value) : (key, value) ∈ members := by
  induction members with
  | nil => simp [lookup] at h
  | cons member members ih =>
    obtain ⟨first, old⟩ := member
    rw [lookup] at h
    split at h
    · rename_i hfirst
      subst hfirst
      cases h
      exact List.mem_cons_self
    · exact List.mem_cons_of_mem _ (ih h)

theorem lookup_eq_none : lookup key members = none ↔ key ∉ members.map Prod.fst := by
  induction members with
  | nil => simp [lookup]
  | cons member members ih =>
    rw [lookup, List.map_cons, List.mem_cons, not_or, ← ih]
    by_cases h : member.1 = key
    · simp [h]
    · simp [h, Ne.symm h]

theorem lookup_of_mem {value : Json} (hkeys : (members.map Prod.fst).Nodup) (h : (key, value) ∈ members) : lookup key members = some value := by
  induction members with
  | nil => cases h
  | cons member members ih =>
    obtain ⟨hnew, hrest⟩ := List.nodup_cons.mp hkeys
    rw [lookup]
    rcases List.mem_cons.mp h with rfl | h
    · simp
    · have hne : member.1 ≠ key := fun heq => hnew (heq ▸ List.mem_map_of_mem h)
      rw [if_neg hne, ih hrest h]

/-- Where the keys are different, a lookup does not depend on the order of the members. -/
theorem lookup_perm {members' : Members} (hkeys : (members.map Prod.fst).Nodup) (h : members.Perm members') (k : Text) :
    lookup k members = lookup k members' := by
  cases hlookup : lookup k members with
  | none => exact (lookup_eq_none.mpr fun hmem => lookup_eq_none.mp hlookup ((h.map Prod.fst).mem_iff.mpr hmem)).symm
  | some value => exact (lookup_of_mem ((h.map Prod.fst).nodup_iff.mp hkeys) (h.mem_iff.mp (mem_of_lookup hlookup))).symm

theorem swapRemove_perm (hkeys : (members.map Prod.fst).Nodup) : (swapRemove key members).Perm (members.filter fun member => member.1 ≠ key) := by
  induction members with
  | nil => exact List.Perm.refl _
  | cons member members ih =>
    obtain ⟨hnew, hrest⟩ := List.nodup_cons.mp hkeys
    obtain ⟨first, old⟩ := member
    rw [swapRemove]
    split
    · rename_i hfirst
      subst hfirst
      have hall : ∀ member ∈ members, member.1 ≠ first := fun member hmem heq => hnew (List.mem_map.mpr ⟨member, hmem, heq⟩)
      rw [List.filter_cons_of_neg (by simp), List.filter_eq_self.mpr (by simpa using fun a b hmem => hall (a, b) hmem)]
      cases hlast : members.getLast? with
      | none => rw [List.getLast?_eq_none_iff.mp hlast]
      | some last =>
        have hsplit := List.dropLast_append_getLast? last hlast
        conv_rhs => rw [← hsplit]
        exact (List.perm_append_singleton last members.dropLast).symm
    · rename_i hfirst
      rw [List.filter_cons_of_pos (by simpa using hfirst)]
      exact (ih hrest).cons _

theorem lookup_swapRemove (hkeys : (members.map Prod.fst).Nodup) (k : Text) :
    lookup k (swapRemove key members) = if k = key then none else lookup k members := by
  have hperm := @swapRemove_perm _ key hkeys
  have hfiltered : ((members.filter fun member => member.1 ≠ key).map Prod.fst).Nodup := hkeys.sublist (List.filter_sublist.map Prod.fst)
  rw [lookup_perm ((hperm.map Prod.fst).nodup_iff.mpr hfiltered) hperm]
  split
  · rename_i h
    rw [h, lookup_eq_none]
    simp
  · rename_i h
    cases hlookup : lookup k members with
    | none =>
      rw [lookup_eq_none] at hlookup ⊢
      exact fun hmem => hlookup ((List.filter_sublist.map Prod.fst).subset hmem)
    | some value =>
      refine lookup_of_mem hfiltered (List.mem_filter.mpr ⟨mem_of_lookup hlookup, ?_⟩)
      simpa using h

theorem distinct_arr {rows : List Json} : (Json.arr rows).distinct = true ↔ ∀ row ∈ rows, row.distinct = true := by
  rw [distinct]
  induction rows with
  | nil => simp [distinctRows]
  | cons row rows ih => simp [distinctRows, ih]

theorem distinct_obj : (Json.obj members).distinct = true ↔ (members.map Prod.fst).Nodup ∧ ∀ member ∈ members, member.2.distinct = true := by
  have hmembers : ∀ members : Members, distinctMembers members = true ↔ ∀ member ∈ members, member.2.distinct = true := by
    intro members
    induction members with
    | nil => simp [distinctMembers]
    | cons member members ih => simp only [distinctMembers, Bool.and_eq_true, ih, List.forall_mem_cons]
  rw [distinct, Bool.and_eq_true, decide_eq_true_eq, hmembers]

end Members

section Sizes

variable {members : Members} {key : Text}

theorem size_num (n : Nat) : size (.num (.nat n)) = (decimal n).length := by
  rw [size, render, renderNumber]
  refine Utf8.size_ascii fun c hc => ?_
  have := isDigit_decimal hc
  simp only [Char.isDigit, Bool.and_eq_true, decide_eq_true_eq] at this
  have := this.2
  simp only [UInt32.le_iff_toNat_le] at this
  exact this.trans_lt (by decide)

theorem size_true : size (.bool true) = 4 := by decide

theorem membersSize_cons (value : Json) : membersSize ((key, value) :: members) = keySize key + size value + membersSize members := by
  have hcomma : ','.utf8Size = 1 := by decide
  have hcolon : ':'.utf8Size = 1 := by decide
  simp only [membersSize, renderMembers, Utf8.size_append, Utf8.size_cons, keySize, size, hcomma, hcolon]
  omega

theorem size_obj (h : members ≠ []) : size (.obj members) = membersSize members + 1 := by
  have hopen : '\x7b'.utf8Size = 1 := by decide
  have hclose : '\x7d'.utf8Size = 1 := by decide
  have hcomma : ','.utf8Size = 1 := by decide
  obtain ⟨⟨k, value⟩, rest, rfl⟩ := List.exists_cons_of_ne_nil h
  simp only [size, render, membersSize, renderMembers, Utf8.size_append, Utf8.size_cons, Utf8.size_nil, List.drop_succ_cons, List.drop_zero,
    List.cons_append, hopen, hclose, hcomma]
  omega

theorem size_arr {rows : List Json} (h : rows ≠ []) : size (.arr rows) = Utf8.size (renderRows rows) + 1 := by
  have hopen : '['.utf8Size = 1 := by decide
  have hclose : ']'.utf8Size = 1 := by decide
  have hcomma : ','.utf8Size = 1 := by decide
  obtain ⟨row, rest, rfl⟩ := List.exists_cons_of_ne_nil h
  simp only [size, render, renderRows, Utf8.size_append, Utf8.size_cons, Utf8.size_nil, List.drop_succ_cons, List.drop_zero,
    List.cons_append, hopen, hclose, hcomma]
  omega

theorem membersSize_replace {old : Json} (h : lookup key members = some old) (value : Json) :
    membersSize (insert key value members) + size old = membersSize members + size value := by
  induction members with
  | nil => simp [lookup] at h
  | cons member members ih =>
    obtain ⟨first, found⟩ := member
    rw [lookup] at h
    rw [insert, membersSize_cons]
    split at h
    · rename_i hfirst
      cases h
      rw [if_pos hfirst, membersSize_cons, hfirst]
      omega
    · rename_i hfirst
      rw [if_neg hfirst, membersSize_cons]
      have := ih h
      omega

theorem membersSize_add (h : lookup key members = none) (value : Json) :
    membersSize (insert key value members) = membersSize members + keySize key + size value := by
  induction members with
  | nil =>
    rw [insert, membersSize_cons]
    simp [membersSize, renderMembers]
  | cons member members ih =>
    obtain ⟨first, found⟩ := member
    rw [lookup] at h
    split at h
    · cases h
    · rename_i hfirst
      rw [insert, if_neg hfirst, membersSize_cons, membersSize_cons, ih h]
      omega

end Sizes

section Weights

mutual

/-- The nodes of a value and the bytes of its texts. -/
def weight : Json → Nat
  | .str s => Utf8.size s + 1
  | .arr rows => weightRows rows + 1
  | .obj members => weightMembers members + 1
  | _ => 1
termination_by structural value => value

def weightRows : List Json → Nat
  | [] => 0
  | row :: rows => weight row + weightRows rows
termination_by structural rows => rows

def weightMembers : List (Text × Json) → Nat
  | [] => 0
  | (_, value) :: members => weight value + weightMembers members
termination_by structural members => members

end

variable {members : Members} {key : Text} {rows : List Json} {old : Json}

theorem weight_pos (value : Json) : 0 < value.weight := by
  cases value <;> simp [weight]

theorem weightMembers_insert (h : lookup key members = some old) (new : Json) :
    weightMembers (insert key new members) + old.weight = weightMembers members + new.weight := by
  induction members with
  | nil => simp [lookup] at h
  | cons member members ih =>
    obtain ⟨first, found⟩ := member
    rw [lookup] at h
    rw [insert]
    split at h
    · rename_i hfirst
      cases h
      rw [if_pos hfirst, weightMembers, weightMembers]
      omega
    · rename_i hfirst
      rw [if_neg hfirst, weightMembers, weightMembers]
      have := ih h
      omega

theorem weightRows_set {i : Nat} (h : rows[i]? = some old) (new : Json) :
    weightRows (rows.set i new) + old.weight = weightRows rows + new.weight := by
  induction rows generalizing i with
  | nil => simp at h
  | cons row rows ih =>
    cases i with
    | zero =>
      cases h
      rw [List.set_cons_zero, weightRows, weightRows]
      omega
    | succ i =>
      rw [List.set_cons_succ, weightRows, weightRows]
      have := ih (i := i) (by simpa using h)
      omega

theorem weightRows_append (a b : List Json) : weightRows (a ++ b) = weightRows a + weightRows b := by
  induction a with
  | nil => simp [weightRows]
  | cons row a ih =>
    rw [List.cons_append, weightRows, weightRows, ih]
    omega

end Weights

section Assign

variable {keys more : List Text} {new value result : Json}

theorem assign_obj {key : Text} {members : Members} (h : assign (key :: keys) new (.obj members) = some result) :
    ∃ child, assign keys new ((lookup key members).getD .null) = some child ∧ result = .obj (insert key child members) := by
  obtain ⟨child, hchild, rfl⟩ := Option.map_eq_some_iff.mp h
  exact ⟨child, hchild, rfl⟩

theorem assign_null {key : Text} (h : assign (key :: keys) new .null = some result) :
    ∃ child, assign keys new .null = some child ∧ result = .obj [(key, child)] := by
  obtain ⟨child, hchild, rfl⟩ := Option.map_eq_some_iff.mp h
  exact ⟨child, hchild, rfl⟩

/-- What was assigned is found by its keys. -/
theorem getIn_assign (h : assign keys new value = some result) (more : List Text) : getIn (keys ++ more) result = getIn more new := by
  induction keys generalizing value result with
  | nil =>
    cases h
    rfl
  | cons key keys ih =>
    cases value with
    | obj members =>
      obtain ⟨child, hchild, rfl⟩ := assign_obj h
      rw [List.cons_append, getIn, get, lookup_insert, if_pos rfl, Option.bind_some, ih hchild]
    | null =>
      obtain ⟨child, hchild, rfl⟩ := assign_null h
      rw [List.cons_append, getIn, get, lookup, if_pos rfl, Option.bind_some, ih hchild]
    | _ => cases h

/-- What is found by other keys is what was there. -/
theorem getIn_assign_apart {other : List Text} (h : assign keys new value = some result) (hbelow : ¬keys <+: other) (habove : ¬other <+: keys) :
    getIn other result = getIn other value := by
  induction keys generalizing value result other with
  | nil => exact absurd List.nil_prefix hbelow
  | cons key keys ih =>
    cases other with
    | nil => exact absurd List.nil_prefix habove
    | cons first other =>
      have hrest : first = key → ¬keys <+: other ∧ ¬other <+: keys := by
        rintro rfl
        exact ⟨fun hprefix => hbelow ((List.prefix_cons_inj first).mpr hprefix), fun hprefix => habove ((List.prefix_cons_inj first).mpr hprefix)⟩
      have hnull : ∀ {other : List Text}, ¬other <+: keys → getIn other .null = none := by
        intro other hother
        cases other with
        | nil => exact absurd List.nil_prefix hother
        | cons _ _ => rfl
      cases value with
      | obj members =>
        obtain ⟨child, hchild, rfl⟩ := assign_obj h
        rw [getIn, get, getIn, get, lookup_insert]
        by_cases hfirst : first = key
        · subst hfirst
          obtain ⟨hbelow', habove'⟩ := hrest rfl
          rw [if_pos rfl, Option.bind_some, ih hchild hbelow' habove']
          cases lookup first members with
          | none => exact hnull habove'
          | some old => rfl
        · rw [if_neg hfirst]
      | null =>
        obtain ⟨child, hchild, rfl⟩ := assign_null h
        have hbefore : getIn (first :: other) .null = none := rfl
        rw [hbefore, getIn, get, lookup]
        by_cases hfirst : first = key
        · subst hfirst
          obtain ⟨hbelow', habove'⟩ := hrest rfl
          rw [if_pos rfl, Option.bind_some, ih hchild hbelow' habove', hnull habove']
        · rw [if_neg (Ne.symm hfirst)]
          rfl
      | _ => cases h

theorem insert_insert {key : Text} {members : Members} (a b : Json) : insert key b (insert key a members) = insert key b members := by
  induction members with
  | nil => simp [insert]
  | cons member members ih =>
    obtain ⟨first, old⟩ := member
    by_cases hfirst : first = key
    · simp [insert, hfirst]
    · simp [insert, hfirst, ih]

/-- Below a member that is there, only that member changes. -/
theorem assign_insert (key : Text) (keys : List Text) (new child : Json) (members : Members) :
    assign (key :: keys) new (.obj (insert key child members)) = (assign keys new child).map fun changed => .obj (insert key changed members) := by
  rw [assign, lookup_insert, if_pos rfl, Option.getD_some]
  simp only [insert_insert]

end Assign

section Distinct

variable {members : Members} {key : Text}

theorem keys_insert {value : Json} (h : key ∈ members.map Prod.fst) : (insert key value members).map Prod.fst = members.map Prod.fst := by
  induction members with
  | nil => cases h
  | cons member members ih =>
    obtain ⟨first, old⟩ := member
    rw [insert]
    split
    · rename_i hfirst
      rw [List.map_cons, List.map_cons, hfirst]
    · rename_i hfirst
      rw [List.map_cons, List.map_cons, ih ((List.mem_cons.mp h).resolve_left fun heq => hfirst heq.symm)]

theorem mem_insert {value : Json} {member : Text × Json} (h : member ∈ insert key value members) : member = (key, value) ∨ member ∈ members := by
  induction members with
  | nil => exact Or.inl (List.mem_singleton.mp h)
  | cons first members ih =>
    rw [insert] at h
    split at h
    · exact (List.mem_cons.mp h).imp id (List.mem_cons_of_mem _)
    · rcases List.mem_cons.mp h with rfl | h
      · exact Or.inr List.mem_cons_self
      · exact (ih h).imp id (List.mem_cons_of_mem _)

theorem distinct_insert {value : Json} (h : (Json.obj members).distinct = true) (hkey : key ∈ members.map Prod.fst)
    (hvalue : value.distinct = true) : (Json.obj (insert key value members)).distinct = true := by
  obtain ⟨hkeys, hmembers⟩ := distinct_obj.mp h
  refine distinct_obj.mpr ⟨(keys_insert hkey).symm ▸ hkeys, fun member hmember => ?_⟩
  rcases mem_insert hmember with rfl | hmember
  · exact hvalue
  · exact hmembers member hmember

end Distinct

end Json

/-- A JSON object. -/
structure JsonObject where
  members : Json.Members
  distinct : (Json.obj members).distinct = true

/-- The object as a value. -/
def JsonObject.value (object : JsonObject) : Json := .obj object.members

end Lib
