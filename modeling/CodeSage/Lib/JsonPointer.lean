import CodeSage.Lib.Json
import CodeSage.Lib.Segments

/-!
# CodeSage.Lib.JsonPointer

JSON pointers as `serde_json` resolves them, and values changed at a pointer. A pointer is the tokens on the way, each
behind a slash with its tildes and slashes escaped; `follow` walks the tokens, `update` changes what they lead to.
-/

namespace Lib
namespace Json

section Pointers

/-- `key.replace('~', "~0").replace('/', "~1")` -/
def escapeKey (key : Text) : Text :=
  (key.flatMap fun c => if c = '~' then ['~', '0'] else [c]).flatMap fun c => if c = '/' then ['~', '1'] else [c]

/-- `str::replace` of the two characters `a` and `b` by `c` -/
def replacePair (a b c : Char) : Text → Text
  | [] => []
  | [x] => [x]
  | x :: y :: rest => if x = a ∧ y = b then c :: replacePair a b c rest else x :: replacePair a b c (y :: rest)

/-- `token.replace("~1", "/").replace("~0", "~")` -/
def unescape (token : Text) : Text := replacePair '~' '0' '~' (replacePair '~' '1' '/' token)

def toPointer (tokens : List Text) : Text := tokens.flatMap fun token => '/' :: escapeKey token

/-- The tokens of a pointer; `none` for a text that is none. -/
def tokensOf (pointer : Text) : Option (List Text) :=
  match pointer with
  | [] => some []
  | '/' :: rest => some ((Segments.split rest).map unescape)
  | _ => none

/-- `parse_index`: no sign and no leading zero -/
def parseIndex (token : Text) : Option Nat :=
  if token.head? = some '+' || token.head? = some '0' && token.length ≠ 1 then none else parseDigits token

def child (value : Json) (token : Text) : Option Json :=
  match value with
  | .obj members => lookup token members
  | .arr rows => (parseIndex token).bind (rows[·]?)
  | _ => none

def setChild (value : Json) (token : Text) (new : Json) : Json :=
  match value with
  | .obj members => .obj (insert token new members)
  | .arr rows =>
    match parseIndex token with
    | some i => .arr (rows.set i new)
    | none => .arr rows
  | value => value

def follow : List Text → Json → Option Json
  | [], value => some value
  | token :: tokens, value => (child value token).bind (follow tokens)

/-- `*value.pointer_mut(pointer)? = f(..)`, by tokens -/
def update (f : Json → Json) : List Text → Json → Option Json
  | [], value => some (f value)
  | token :: tokens, value => do
    let old ← child value token
    let new ← update f tokens old
    some (setChild value token new)

/-- `value.pointer(pointer)` -/
def pointer (value : Json) (pointer : Text) : Option Json := (tokensOf pointer).bind (follow · value)

end Pointers

section Indices

theorem decimal_zero_head {n : Nat} (h : (decimal n).head? = some '0') : (decimal n).length = 1 := by
  induction n using Nat.strong_induction_on with
  | _ n ih =>
    rw [decimal, Nat.toDigits_eq_if (by decide)] at h ⊢
    split at h
    · rename_i hlt
      rw [if_pos hlt]
      rfl
    · rename_i hge
      have hhead : (decimal (n / 10)).head? = some '0' := by
        rw [← h, List.head?_append_of_ne_nil _ Nat.toDigits_ne_nil, decimal]
      obtain ⟨d, hd⟩ := List.length_eq_one_iff.mp (ih (n / 10) (by omega) hhead)
      have hzero := Nat.ofDigitChars_ten_toDigits (n := n / 10)
      rw [hd] at hhead
      rw [← decimal, hd, Option.some.inj hhead] at hzero
      have : n / 10 = 0 := hzero.symm
      omega

theorem decimal_ofDigitChars {token : Text} (hne : token ≠ []) (hdigits : ∀ c ∈ token, c.isDigit = true)
    (hzero : token.head? = some '0' → token.length = 1) : decimal (Nat.ofDigitChars 10 token 0) = token := by
  induction token using List.reverseRecOn with
  | nil => exact absurd rfl hne
  | append_singleton front last ih =>
    have hlast : last.isDigit = true := hdigits last (by simp)
    simp only [Char.isDigit, Bool.and_eq_true, decide_eq_true_eq, ge_iff_le, UInt32.le_iff_toNat_le] at hlast
    have hlow : 48 ≤ last.toNat := hlast.1
    have hhigh : last.toNat ≤ 57 := hlast.2
    have hdigit : Nat.digitChar (last.toNat - 48) = last := by
      have hcases : ∀ k < 10, Nat.digitChar k = Char.ofNat (48 + k) := by decide
      rw [hcases _ (by omega), Nat.add_sub_cancel' hlow, Char.ofNat_toNat]
    rw [Nat.ofDigitChars_append, Nat.ofDigitChars_cons, Nat.ofDigitChars_nil]
    by_cases hfront : front = []
    · rw [hfront, Nat.ofDigitChars_nil, decimal, Nat.toDigits_of_lt_base (by show 10 * 0 + (last.toNat - 48) < 10; omega)]
      exact congrArg (fun c => [c]) (by rw [Nat.mul_zero, Nat.zero_add]; exact hdigit)
    · have hhead : (front ++ [last]).head? = front.head? := List.head?_append_of_ne_nil _ hfront
      have hnot : front.head? ≠ some '0' := by
        intro h
        have := hzero (hhead.trans h)
        have hpos := List.length_pos_iff.mpr hfront
        rw [List.length_append, List.length_singleton] at this
        omega
      have hfrontDecimal := ih hfront (fun c hc => hdigits c (List.mem_append_left _ hc)) fun h => absurd h hnot
      have hpos : 0 < Nat.ofDigitChars 10 front 0 := by
        refine Nat.pos_of_ne_zero fun h => hnot ?_
        rw [h] at hfrontDecimal
        rw [← hfrontDecimal]
        rfl
      have hjoin := Nat.toDigits_append_toDigits (b := 10) (d := last.toNat - 48) (by decide) hpos (by omega)
      have hsingle : Nat.toDigits 10 (last.toNat - 48) = [last] := by rw [Nat.toDigits_of_lt_base (by omega), hdigit]
      rw [decimal, show '0'.toNat = 48 from rfl, ← hjoin, hsingle]
      exact congrArg (· ++ [last]) hfrontDecimal

theorem parseIndex_decimal (i : Nat) : parseIndex (decimal i) = some i := by
  have hplus : (decimal i).head? ≠ some '+' := by
    obtain ⟨d, ds, hd, -, hne⟩ := decimal_eq_cons i
    rw [hd]
    exact fun h => hne (Option.some.inj h)
  have hzero : ¬((decimal i).head? = some '0' ∧ (decimal i).length ≠ 1) := fun h => h.2 (decimal_zero_head h.1)
  rw [parseIndex, if_neg (by simpa [hplus] using hzero), parseDigits_decimal]

/-- An index is written in one way only. -/
theorem eq_decimal_of_parseIndex {token : Text} {i : Nat} (h : parseIndex token = some i) : token = decimal i := by
  rw [parseIndex] at h
  split at h
  · cases h
  · rename_i hnot
    simp only [Bool.or_eq_true, Bool.and_eq_true, decide_eq_true_eq, not_or, not_and, not_not] at hnot
    rw [parseDigits] at h
    split at h
    · rename_i hall
      simp only [Bool.and_eq_true, Bool.not_eq_true', List.isEmpty_eq_false_iff, List.all_eq_true] at hall
      cases h
      exact (decimal_ofDigitChars hall.1 hall.2 hnot.2).symm
    · cases h

end Indices

section Texts

theorem replacePair_cons {a b c x : Char} (h : x ≠ a) (text : Text) : replacePair a b c (x :: text) = x :: replacePair a b c text := by
  cases text with
  | nil => simp [replacePair]
  | cons y rest => rw [replacePair, if_neg fun hpair => h hpair.1]

theorem replacePair_pair {a b c : Char} (text : Text) : replacePair a b c (a :: b :: text) = c :: replacePair a b c text := by
  rw [replacePair, if_pos ⟨rfl, rfl⟩]

theorem replacePair_other {a b c y : Char} (h : y ≠ b) (text : Text) :
    replacePair a b c (a :: y :: text) = a :: replacePair a b c (y :: text) := by
  rw [replacePair, if_neg fun hpair => h hpair.2]

theorem replacePair_slash (key : Text) :
    replacePair '~' '1' '/' (escapeKey key) = key.flatMap fun c => if c = '~' then ['~', '0'] else [c] := by
  rw [escapeKey]
  induction key with
  | nil => rfl
  | cons c key ih =>
    simp only [List.flatMap_cons, List.flatMap_append]
    by_cases htilde : c = '~'
    · simp only [htilde, if_true, List.flatMap_cons, List.flatMap_nil]
      simp only [Char.reduceEq, if_false, List.append_nil, List.cons_append, List.nil_append]
      rw [replacePair_other (by decide), replacePair_cons (by decide), ih]
    · simp only [htilde, if_false, List.flatMap_cons, List.flatMap_nil, List.append_nil]
      by_cases hc : c = '/'
      · simp only [hc, if_true, List.cons_append, List.nil_append]
        rw [replacePair_pair, ih]
      · simp only [hc, if_false, List.cons_append, List.nil_append]
        rw [replacePair_cons htilde, ih]

theorem replacePair_tilde (key : Text) : replacePair '~' '0' '~' (key.flatMap fun c => if c = '~' then ['~', '0'] else [c]) = key := by
  induction key with
  | nil => rfl
  | cons c key ih =>
    rw [List.flatMap_cons]
    by_cases htilde : c = '~'
    · simp only [htilde, if_true, List.cons_append, List.nil_append]
      rw [replacePair_pair, ih]
    · simp only [htilde, if_false, List.cons_append, List.nil_append]
      rw [replacePair_cons htilde, ih]

theorem unescape_escapeKey (key : Text) : unescape (escapeKey key) = key := by
  rw [unescape, replacePair_slash, replacePair_tilde]

theorem slash_notMem_escapeKey (key : Text) : '/' ∉ escapeKey key := by
  rw [escapeKey, List.mem_flatMap]
  rintro ⟨c, -, hc⟩
  split at hc
  · simp at hc
  · rename_i hne
    exact hne (List.mem_singleton.mp hc).symm

theorem split_escapeKey (key : Text) : Segments.split (escapeKey key) = [escapeKey key] := by
  have hjoin : Segments.join [escapeKey key] = escapeKey key := by simp [Segments.join, List.intercalate]
  have hsplit := @Segments.split_join [escapeKey key] (by simpa using slash_notMem_escapeKey key) (by simp)
  rwa [hjoin] at hsplit

theorem tokensOf_toPointer (tokens : List Text) : tokensOf (toPointer tokens) = some tokens := by
  cases tokens with
  | nil => rfl
  | cons token tokens =>
    have hsplit : ∀ tokens : List Text, ∀ first : Text,
        Segments.split (escapeKey first ++ toPointer tokens) = escapeKey first :: tokens.map escapeKey := by
      intro tokens
      induction tokens with
      | nil =>
        intro first
        rw [toPointer, List.flatMap_nil, List.append_nil]
        exact split_escapeKey first
      | cons next tokens ih =>
        intro first
        rw [toPointer, List.flatMap_cons, List.cons_append, Segments.split_slash, ← toPointer, ih next, split_escapeKey]
        rfl
    have hback : (tokens.map escapeKey).map unescape = tokens := by
      rw [List.map_map]
      exact (List.map_congr_left fun token _ => unescape_escapeKey token).trans (List.map_id tokens)
    rw [toPointer, List.flatMap_cons, List.cons_append, ← toPointer, tokensOf, hsplit, List.map_cons, hback, unescape_escapeKey]

theorem toPointer_injective {a b : List Text} (h : toPointer a = toPointer b) : a = b := by
  have := tokensOf_toPointer a
  rw [h, tokensOf_toPointer] at this
  exact (Option.some.inj this).symm

theorem pointer_toPointer (value : Json) (tokens : List Text) : value.pointer (toPointer tokens) = follow tokens value := by
  rw [pointer, tokensOf_toPointer, Option.bind_some]

theorem escapeKey_decimal (i : Nat) : escapeKey (decimal i) = decimal i := by
  have hplain : ∀ c ∈ decimal i, c ≠ '~' ∧ c ≠ '/' := by
    intro c hc
    have hdigit := isDigit_decimal hc
    constructor <;> rintro rfl <;> exact absurd hdigit (by decide)
  have hflat : ∀ {f : Char → Text} {text : Text}, (∀ c ∈ text, f c = [c]) → text.flatMap f = text := by
    intro f text h
    induction text with
    | nil => rfl
    | cons c text ih =>
      rw [List.flatMap_cons, h c List.mem_cons_self, ih fun d hd => h d (List.mem_cons_of_mem _ hd)]
      rfl
  rw [escapeKey, hflat fun c hc => if_neg (hplain c hc).1, hflat fun c hc => if_neg (hplain c hc).2]

end Texts

section Walks

variable {value new old : Json} {f : Json → Json} {token : Text} {tokens : List Text}

theorem child_setChild (h : child value token = some old) : child (setChild value token new) token = some new := by
  cases value with
  | obj members => simp [setChild, child, lookup_insert]
  | arr rows =>
    simp only [child] at h
    cases hindex : parseIndex token with
    | none => simp [hindex] at h
    | some i =>
      have hlt : i < rows.length := by
        rw [hindex, Option.bind_some] at h
        exact (List.getElem?_eq_some_iff.mp h).1
      simp [setChild, child, hindex, hlt]
  | _ => simp [child] at h

theorem child_setChild_other {other : Text} (h : other ≠ token) : child (setChild value token new) other = child value other := by
  cases value with
  | obj members => simp [setChild, child, lookup_insert, h]
  | arr rows =>
    cases hindex : parseIndex token with
    | none => simp [setChild, hindex]
    | some i =>
      simp only [setChild, hindex, child]
      cases hother : parseIndex other with
      | none => rfl
      | some j =>
        have hne : i ≠ j := by
          rintro rfl
          exact h ((eq_decimal_of_parseIndex hother).trans (eq_decimal_of_parseIndex hindex).symm)
        rw [Option.bind_some, Option.bind_some, List.getElem?_set_ne hne]
  | _ => rfl

theorem follow_append (a b : List Text) (value : Json) : follow (a ++ b) value = (follow a value).bind (follow b) := by
  induction a generalizing value with
  | nil => rfl
  | cons token tokens ih =>
    rw [List.cons_append, follow, follow]
    cases child value token with
    | none => rfl
    | some next => exact ih next

theorem update_cons {result : Json} (h : update f (token :: tokens) value = some result) :
    ∃ old new, child value token = some old ∧ update f tokens old = some new ∧ result = setChild value token new := by
  simp only [update, Option.bind_eq_bind] at h
  obtain ⟨old, hold, h⟩ := Option.bind_eq_some_iff.mp h
  obtain ⟨new, hnew, h⟩ := Option.bind_eq_some_iff.mp h
  exact ⟨old, new, hold, hnew, (Option.some.inj h).symm⟩

theorem exists_update (h : follow tokens value = some old) : ∃ result, update f tokens value = some result := by
  induction tokens generalizing value with
  | nil => exact ⟨_, rfl⟩
  | cons token tokens ih =>
    obtain ⟨next, hnext, h⟩ := Option.bind_eq_some_iff.mp h
    obtain ⟨result, hresult⟩ := ih h
    exact ⟨_, by rw [update, hnext, Option.bind_eq_bind, Option.bind_some, hresult]; rfl⟩

/-- Below the place of an update stands what `f` has made. -/
theorem follow_update {result : Json} (h : update f tokens value = some result) (hold : follow tokens value = some old) (more : List Text) :
    follow (tokens ++ more) result = follow more (f old) := by
  induction tokens generalizing value result with
  | nil =>
    cases hold
    cases h
    rfl
  | cons token tokens ih =>
    obtain ⟨next, new, hchild, hnew, rfl⟩ := update_cons h
    rw [follow, hchild, Option.bind_some] at hold
    rw [List.cons_append, follow, child_setChild hchild, Option.bind_some]
    exact ih hnew hold

/-- Off the way to an update nothing changes. -/
theorem follow_update_apart {result : Json} {other : List Text} (h : update f tokens value = some result)
    (hbelow : ¬tokens <+: other) (habove : ¬other <+: tokens) : follow other result = follow other value := by
  induction tokens generalizing value result other with
  | nil => exact absurd (List.nil_prefix) hbelow
  | cons token tokens ih =>
    obtain ⟨next, new, hchild, hnew, rfl⟩ := update_cons h
    cases other with
    | nil => exact absurd (List.nil_prefix) habove
    | cons first other =>
      rw [follow, follow]
      by_cases hfirst : first = token
      · subst hfirst
        rw [child_setChild hchild, hchild, Option.bind_some, Option.bind_some]
        refine ih hnew (fun hprefix => hbelow ?_) fun hprefix => habove ?_
        · exact (List.prefix_cons_inj first).mpr hprefix
        · exact (List.prefix_cons_inj first).mpr hprefix
      · rw [child_setChild_other hfirst]

/-- Above an update, the value there is updated on the rest of the way. -/
theorem follow_update_above {result : Json} {above rest : List Text} (h : update f (above ++ rest) value = some result)
    (hold : follow above value = some old) : ∃ new, update f rest old = some new ∧ follow above result = some new := by
  induction above generalizing value result with
  | nil =>
    cases hold
    exact ⟨result, h, rfl⟩
  | cons token above ih =>
    obtain ⟨next, new, hchild, hnew, rfl⟩ := update_cons h
    rw [follow, hchild, Option.bind_some] at hold
    obtain ⟨changed, hchanged, hfollow⟩ := ih hnew hold
    exact ⟨changed, hchanged, by rw [follow, child_setChild hchild, Option.bind_some, hfollow]⟩

theorem weight_setChild (h : child value token = some old) (new : Json) :
    (setChild value token new).weight + old.weight = value.weight + new.weight := by
  cases value with
  | obj members =>
    have := weightMembers_insert h new
    simp only [setChild, weight]
    omega
  | arr rows =>
    simp only [child] at h
    obtain ⟨i, hindex, hrow⟩ := Option.bind_eq_some_iff.mp h
    have := weightRows_set hrow new
    simp only [setChild, hindex, weight]
    omega
  | _ => simp [child] at h

theorem weight_update {result : Json} (h : update f tokens value = some result) (hold : follow tokens value = some old) :
    result.weight + old.weight = value.weight + (f old).weight := by
  induction tokens generalizing value result with
  | nil =>
    cases hold
    cases h
    exact Nat.add_comm _ _
  | cons token tokens ih =>
    obtain ⟨next, new, hchild, hnew, rfl⟩ := update_cons h
    rw [follow, hchild, Option.bind_some] at hold
    have := ih hnew hold
    have := weight_setChild hchild new
    omega

theorem distinct_child (h : value.distinct = true) (hchild : child value token = some old) : old.distinct = true := by
  cases value with
  | obj members => exact (distinct_obj.mp h).2 _ (mem_of_lookup hchild)
  | arr rows =>
    obtain ⟨i, -, hrow⟩ := Option.bind_eq_some_iff.mp hchild
    exact distinct_arr.mp h old (List.mem_of_getElem? hrow)
  | _ => simp [child] at hchild

theorem distinct_setChild (h : value.distinct = true) (hchild : child value token = some old) (hnew : new.distinct = true) :
    (setChild value token new).distinct = true := by
  cases value with
  | obj members => exact distinct_insert h (List.mem_map_of_mem (f := Prod.fst) (mem_of_lookup hchild)) hnew
  | arr rows =>
    obtain ⟨i, hindex, hrow⟩ := Option.bind_eq_some_iff.mp hchild
    simp only [setChild, hindex]
    refine distinct_arr.mpr fun row hmem => ?_
    rcases List.mem_or_eq_of_mem_set hmem with hmem | rfl
    · exact distinct_arr.mp h row hmem
    · exact hnew
  | _ => simp [child] at hchild

theorem distinct_follow (h : value.distinct = true) (hold : follow tokens value = some old) : old.distinct = true := by
  induction tokens generalizing value with
  | nil =>
    cases hold
    exact h
  | cons token tokens ih =>
    obtain ⟨next, hnext, hold⟩ := Option.bind_eq_some_iff.mp hold
    exact ih (distinct_child h hnext) hold

theorem distinct_update {result : Json} (h : value.distinct = true) (hupdate : update f tokens value = some result)
    (hold : follow tokens value = some old) (hf : (f old).distinct = true) : result.distinct = true := by
  induction tokens generalizing value result with
  | nil =>
    cases hold
    cases hupdate
    exact hf
  | cons token tokens ih =>
    obtain ⟨next, new, hchild, hnew, rfl⟩ := update_cons hupdate
    rw [follow, hchild, Option.bind_some] at hold
    exact distinct_setChild h hchild (ih (distinct_child h hchild) hnew hold)

end Walks

end Json
end Lib
