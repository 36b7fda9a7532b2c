import CodeSage.Graph.SessionLedger
import CodeSage.Lib.Utf8

/-!
# CodeSage.Graph.SessionLedgerCorrect

What is read back from a ledger. `read_iff`: after any run of appends, torn or not, that is what was completely written,
just if every record that was ends within the bytes that are read at all.
-/

namespace CodeSage
namespace Graph
namespace SessionLedger

open Lib

section Encoding

theorem newline_notMem_escapeChar (c : Char) : '\n' ∉ Json.escapeChar c := by
  have hdigit : ∀ n < 16, Nat.digitChar n ≠ '\n' := by decide
  rw [Json.escapeChar]
  split_ifs with h₁ h₂ h₃ h₄ h₅ h₆ h₇ h₈
  all_goals try decide
  · simp only [Json.controlEscape, List.mem_cons, List.not_mem_nil, or_false, not_or]
    refine ⟨by decide, by decide, by decide, by decide, ?_, ?_⟩
    · exact (hdigit _ (by omega)).symm
    · exact (hdigit _ (by omega)).symm
  · simpa using Ne.symm h₅

theorem newline_notMem_quote (s : Text) : '\n' ∉ Json.quote s := by
  rw [Json.quote]
  simp only [List.mem_append, List.mem_cons, List.mem_flatMap, List.not_mem_nil, or_false, not_or, not_exists, not_and]
  exact ⟨⟨by decide, fun c _ => newline_notMem_escapeChar c⟩, by decide⟩

theorem newline_notMem_decimal (n : Nat) : '\n' ∉ decimal n := by
  intro h
  have := isDigit_decimal h
  revert this
  decide

theorem newline_notMem_strings (texts : List Text) : '\n' ∉ Json.renderRows (texts.map .str) := by
  induction texts with
  | nil => exact List.not_mem_nil
  | cons text texts ih =>
    rw [List.map_cons, Json.renderRows, Json.render]
    simp only [List.mem_append, List.mem_cons, not_or]
    exact ⟨⟨by decide, newline_notMem_quote text⟩, ih⟩

/-- A record is written on one line. -/
theorem newline_notMem_render (call : LedgerCall) : '\n' ∉ call.toJson.render := by
  have hdrop : ∀ {text : Text}, '\n' ∉ text → '\n' ∉ text.drop 1 := fun h hmem => h (List.mem_of_mem_drop hmem)
  have hdetail : '\n' ∉ ((call.detail.map Json.str).getD .null).render := by
    cases call.detail with
    | none => decide
    | some detail => exact newline_notMem_quote detail
  have hhandles : '\n' ∉ (Json.arr (call.targetHandles.map .str)).render := by
    rw [Json.render]
    simp only [List.mem_append, List.mem_cons, List.not_mem_nil, or_false, not_or]
    exact ⟨⟨by decide, hdrop (newline_notMem_strings call.targetHandles)⟩, by decide⟩
  have hnumber : ∀ n : Nat, '\n' ∉ (Json.num (.nat n)).render := newline_notMem_decimal
  have htool : '\n' ∉ (Json.str call.tool).render := newline_notMem_quote call.tool
  have hmembers : ∀ members : Json.Members, (∀ member ∈ members, '\n' ∉ member.2.render) → '\n' ∉ Json.renderMembers members := by
    intro members
    induction members with
    | nil => exact fun _ => List.not_mem_nil
    | cons member members ih =>
      intro hall
      obtain ⟨key, value⟩ := member
      rw [Json.renderMembers]
      simp only [List.mem_append, List.mem_cons, not_or]
      exact ⟨⟨⟨by decide, newline_notMem_quote key⟩, by decide, hall _ List.mem_cons_self⟩,
        ih fun member hmem => hall member (List.mem_cons_of_mem _ hmem)⟩
  rw [LedgerCall.toJson, Json.render]
  simp only [List.mem_append, List.mem_cons, List.not_mem_nil, or_false, not_or]
  refine ⟨⟨by decide, hdrop (hmembers _ ?_)⟩, by decide⟩
  simp only [List.forall_mem_cons]
  exact ⟨hnumber _, htool, hhandles, hdetail, hnumber _, List.forall_mem_nil _⟩

theorem newline_notMem_encode (call : LedgerCall) : NEWLINE ∉ call.encode := by
  rw [LedgerCall.encode, Utf8.bytes, List.mem_flatMap]
  rintro ⟨c, hc, hbyte⟩
  have hval := Utf8.mem_encode_ascii (by decide) hbyte
  have hnewline : c = '\n' := by
    rw [← Char.toNat_inj]
    exact hval.symm
  exact newline_notMem_render call (hnewline ▸ hc)

theorem encode_ne_nil (call : LedgerCall) : call.encode ≠ [] := by
  intro hnil
  have hlength := congrArg List.length hnil
  rw [LedgerCall.encode, Utf8.length_bytes] at hlength
  have := Utf8.size_eq_zero.mp hlength
  rw [LedgerCall.toJson, Json.render] at this
  cases this

end Encoding

section Lines

variable {decode : List UInt8 → Option LedgerCall}

/-- The calls in the lines of some bytes. -/
def calls (decode : List UInt8 → Option LedgerCall) (bytes : List UInt8) : List LedgerCall :=
  (bytes.splitOn NEWLINE).filterMap decode

/-- A record is decoded as it was, and no part of it that lacks its end is decoded at all. -/
structure Decodes (decode : List UInt8 → Option LedgerCall) (call : LedgerCall) : Prop where
  whole : decode call.encode = some call
  part : ∀ front, front <+: call.encode → front ≠ call.encode → decode front = none

theorem calls_line (a b : List UInt8) : calls decode (a ++ NEWLINE :: b) = calls decode a ++ calls decode b := by
  rw [calls, List.splitOn_append_cons_self, List.filterMap_append]
  rfl

theorem calls_single {bytes : List UInt8} (h : NEWLINE ∉ bytes) : calls decode bytes = (decode bytes).toList := by
  rw [calls, List.splitOn_eq_singleton h]
  cases hdecode : decode bytes <;> simp [hdecode]

theorem Decodes.empty {call : LedgerCall} (h : Decodes decode call) : calls decode [] = [] := by
  rw [calls_single List.not_mem_nil, h.part [] (List.nil_prefix) (encode_ne_nil call).symm]
  rfl

/-- The front of a record's line. -/
theorem calls_front {call : LedgerCall} (h : Decodes decode call) (n : Nat) :
    calls decode ((call.encode ++ [NEWLINE]).take n) = if call.encode.length ≤ n then [call] else [] := by
  by_cases hn : call.encode.length ≤ n
  · rw [if_pos hn]
    rcases Nat.eq_or_lt_of_le hn with rfl | hlt
    · rw [List.take_left, calls_single (newline_notMem_encode call), h.whole]
      rfl
    · have hall : (call.encode ++ [NEWLINE]).length ≤ n := by
        rw [List.length_append, List.length_singleton]
        exact hlt
      rw [List.take_of_length_le hall, calls_line, calls_single (newline_notMem_encode call), h.whole, h.empty]
      rfl
  · rw [if_neg hn, List.take_append_of_le_length (by omega)]
    have hne : call.encode.take n ≠ call.encode := by
      intro heq
      have := congrArg List.length heq
      rw [List.length_take] at this
      omega
    rw [calls_single (fun hmem => newline_notMem_encode call (List.mem_of_mem_take hmem)),
      h.part _ (List.take_prefix n _) hne]
    rfl

/-- Some bytes of an append add its call, if they reach to the end of its JSON text, and no other call. -/
theorem calls_append {call : LedgerCall} (h : Decodes decode call) (file : List UInt8) (n : Nat) :
    calls decode (file ++ (lineOf file call).take n) = calls decode file ++ if jsonEnd file call ≤ n then [call] else [] := by
  rw [lineOf, jsonEnd, List.append_assoc]
  rcases List.eq_nil_or_concat' file with rfl | ⟨front, last, rfl⟩
  · have hnil : repair [] = [] := rfl
    rw [hnil, List.nil_append, List.nil_append, calls_front h, h.empty, List.length_nil, Nat.zero_add, List.nil_append]
  · by_cases hlast : last = NEWLINE
    · subst hlast
      have hnil : repair (front ++ [NEWLINE]) = [] := by
        rw [repair, List.getLast?_concat]
        rfl
      rw [hnil, List.nil_append, List.append_assoc, List.singleton_append, calls_line, calls_front h, calls_line, h.empty,
        List.append_nil, List.length_nil, Nat.zero_add]
    · have hrepair : repair (front ++ [last]) = [NEWLINE] := by
        rw [repair, List.getLast?_concat, Option.any_some, if_pos (by simpa using hlast)]
      rw [hrepair, List.singleton_append, List.length_singleton]
      cases n with
      | zero =>
        rw [List.take_zero, List.append_nil, if_neg (by omega), List.append_nil]
      | succ n =>
        rw [List.take_succ_cons, calls_line, calls_front h]
        refine congrArg _ (if_congr ?_ rfl rfl)
        omega

end Lines

section Runs

variable {decode : List UInt8 → Option LedgerCall} {op : Append} {file : Option (List UInt8)}

/-- The calls that are read from a ledger. -/
def view (decode : List UInt8 → Option LedgerCall) (file : Option (List UInt8)) : List LedgerCall :=
  calls decode ((file.getD []).take READ_LIMIT)

theorem cap_lt_limit : MAX_LEDGER_BYTES < READ_LIMIT := by decide

/-- What an append writes is the front of its line. -/
theorem Append.cut_eq (op : Append) (line : List UInt8) : op.cut line = line.take (op.cut line).length := by
  rw [Append.cut]
  cases op.torn with
  | none => exact (List.take_length).symm
  | some n => simp

/-- The call of an append that is read later on. -/
def seenOf (op : Append) (file : List UInt8) : List LedgerCall :=
  if op.completes file = true ∧ file.length + jsonEnd file op.call ≤ READ_LIMIT then [op.call] else []

theorem view_write (h : Decodes decode op.call) : view decode (op.write file) = view decode file ++ seenOf op (file.getD []) := by
  rw [view, view, seenOf, Append.write]
  generalize file.getD [] = old
  by_cases hcap : MAX_LEDGER_BYTES ≤ old.length
  · have hnot : op.completes old = false := by
      rw [Append.completes, decide_eq_false (Nat.not_lt.mpr hcap), Bool.false_and]
    rw [if_pos hcap, hnot, if_neg (by simp), List.append_nil, Option.getD_some]
  · have hlimit := cap_lt_limit
    rw [if_neg hcap, Option.getD_some, List.take_append, List.take_of_length_le (l := old) (by omega), Append.cut_eq, List.take_take,
      calls_append h]
    refine congrArg _ (if_congr ?_ rfl rfl)
    rw [Append.completes, Bool.and_eq_true, decide_eq_true_eq, decide_eq_true_eq, Nat.le_min]
    omega

/-- The calls of a run that are read behind it. -/
def seen (file : Option (List UInt8)) : List Append → List LedgerCall
  | [] => []
  | op :: ops => seenOf op (file.getD []) ++ seen (op.write file) ops

theorem view_run {ops : List Append} (h : ∀ op ∈ ops, Decodes decode op.call) :
    view decode (ledgerAfter file ops) = view decode file ++ seen file ops := by
  induction ops generalizing file with
  | nil => exact (List.append_nil _).symm
  | cons op ops ih =>
    rw [ledgerAfter, seen, ih fun op hop => h op (List.mem_cons_of_mem _ hop), view_write (h op List.mem_cons_self), List.append_assoc]

theorem seen_completed (file : Option (List UInt8)) (ops : List Append) :
    (AllFit file ops → seen file ops = completed file ops) ∧ (seen file ops).length ≤ (completed file ops).length ∧
      (¬AllFit file ops → (seen file ops).length < (completed file ops).length) := by
  induction ops generalizing file with
  | nil => exact ⟨fun _ => rfl, Nat.le_refl _, fun hnot => absurd trivial hnot⟩
  | cons op ops ih =>
    obtain ⟨hsame, hle, hlt⟩ := ih (op.write file)
    rw [seen, completed, AllFit, seenOf]
    by_cases hcompletes : op.completes (file.getD []) = true
    · by_cases hfit : (file.getD []).length + jsonEnd (file.getD []) op.call ≤ READ_LIMIT
      · rw [if_pos ⟨hcompletes, hfit⟩, if_pos hcompletes, List.length_append, List.length_append]
        refine ⟨fun hall => by rw [hsame hall.2], by omega, fun hnot => ?_⟩
        have := hlt fun hall => hnot ⟨fun _ => hfit, hall⟩
        omega
      · rw [if_neg fun hboth => hfit hboth.2, if_pos hcompletes, List.nil_append, List.length_append, List.length_singleton]
        exact ⟨fun hall => absurd (hall.1 hcompletes) hfit, by omega, fun _ => by omega⟩
    · rw [if_neg fun hboth => hcompletes hboth.1, if_neg hcompletes, List.nil_append, List.nil_append]
      exact ⟨fun hall => hsame hall.2, hle, fun hnot => hlt fun hall => hnot ⟨fun h => absurd h hcompletes, hall⟩⟩

theorem seen_eq_iff (file : Option (List UInt8)) (ops : List Append) : seen file ops = completed file ops ↔ AllFit file ops := by
  obtain ⟨hsame, -, hlt⟩ := seen_completed file ops
  constructor
  · intro heq
    by_contra hnot
    have := hlt hnot
    rw [heq] at this
    omega
  · exact hsame

/-- What is read of a ledger that a run wrote, of whatever time. -/
theorem read_calls {ops : List Append} (h : ∀ op ∈ ops, Decodes decode op.call) :
    (readSessionLedger decode (ledgerAfter none ops) 0).calls = seen none ops := by
  cases ops with
  | nil => rfl
  | cons op ops =>
    have hview := @view_run decode none _ h
    have hpresent : ∀ (bytes : List UInt8) (ops : List Append), ∃ bytes', ledgerAfter (some bytes) ops = some bytes' := by
      intro bytes ops
      induction ops generalizing bytes with
      | nil => exact ⟨bytes, rfl⟩
      | cons op ops ih =>
        obtain ⟨bytes', hbytes'⟩ : ∃ bytes', op.write (some bytes) = some bytes' := by
          rw [Append.write]
          split
          · exact ⟨_, rfl⟩
          · exact ⟨_, rfl⟩
        rw [ledgerAfter, hbytes']
        exact ih bytes'
    have hstart : op.write none = some (op.cut (lineOf [] op.call)) := rfl
    obtain ⟨bytes, hbytes⟩ := hpresent (op.cut (lineOf [] op.call)) ops
    have hafter : ledgerAfter none (op :: ops) = some bytes := by rw [ledgerAfter, hstart, hbytes]
    have hempty : view decode none = [] := (h op List.mem_cons_self).empty
    rw [hafter, hempty, List.nil_append] at hview
    rw [hafter, ← hview, readSessionLedger, view, calls, Option.getD_some]
    exact List.filter_eq_self.mpr fun call _ => decide_eq_true (UInt64.zero_le)

end Runs

/-- After any run, a ledger is read back as what was completely written just if every record that was ends within what is
read. -/
theorem read_iff {decode : List UInt8 → Option LedgerCall} {ops : List Append} (h : ∀ op ∈ ops, Decodes decode op.call) :
    (readSessionLedger decode (ledgerAfter none ops) 0).calls = completed none ops ↔ AllFit none ops := by
  rw [read_calls h]
  exact seen_eq_iff none ops

section Lost

/-- The decoder of one record. -/
def decodeOne (call : LedgerCall) (line : List UInt8) : Option LedgerCall := if line = call.encode then some call else none

theorem decodes_one (call : LedgerCall) : Decodes (decodeOne call) call where
  whole := if_pos rfl
  part _ _ hne := if_neg hne

def smallCall : LedgerCall where
  ts := 1
  tool := "search".toList
  targetHandles := ["file:a.rs".toList]
  detail := none
  bytes := 10

theorem read_iff_torn :
    (readSessionLedger (decodeOne smallCall) (ledgerAfter none [⟨smallCall, some 5⟩, ⟨smallCall, none⟩]) 0).calls =
      completed none [⟨smallCall, some 5⟩, ⟨smallCall, none⟩] ↔ AllFit none [⟨smallCall, some 5⟩, ⟨smallCall, none⟩] :=
  read_iff (by simp only [List.forall_mem_cons]; exact ⟨decodes_one smallCall, decodes_one smallCall, nofun⟩)

/-- A path that is written three times as long in a handle. -/
def bigPath (i : Nat) : Text := List.replicate (920 + i) '%'

def bigHandle (i : Nat) : Text := (Protocol.Handle.file (bigPath i)).toText

/-- A response that serves as many files as a call records. -/
def served : Json := .obj [("files".toList, .arr ((List.range 64).map fun i => .str (bigPath i)))]

def bigCall : LedgerCall where
  ts := 1
  tool := "search".toList
  targetHandles := (List.range 64).map bigHandle
  detail := none
  bytes := 10

theorem bigHandle_eq (i : Nat) : bigHandle i = Protocol.Handle.FILE ++ (List.replicate (920 + i) ['%', '2', '5']).flatten := by
  rw [bigHandle, Protocol.Handle.toText, Protocol.Handle.escape, bigPath, List.flatMap_replicate]
  rfl

theorem length_bigHandle (i : Nat) : (bigHandle i).length = 5 + 3 * (920 + i) := by
  have hgroups : ∀ n, (List.replicate n ['%', '2', '5']).flatten.length = 3 * n := by
    intro n
    induction n with
    | zero => rfl
    | succ n ih =>
      rw [List.replicate_succ, List.flatten_cons, List.length_append, ih]
      simp only [List.length_cons, List.length_nil]
      omega
  rw [bigHandle_eq, List.length_append, hgroups]
  rfl

theorem mem_bigHandle {i : Nat} {c : Char} (h : c ∈ bigHandle i) : c ∈ ['f', 'i', 'l', 'e', ':', '%', '2', '5'] := by
  rw [bigHandle_eq, List.mem_append, List.mem_flatten] at h
  rcases h with h | ⟨group, hgroup, hc⟩
  · have hfile : ['f', 'i', 'l', 'e', ':'] ++ ['%', '2', '5'] = ['f', 'i', 'l', 'e', ':', '%', '2', '5'] := rfl
    exact hfile ▸ List.mem_append_left _ h
  · rw [List.eq_of_mem_replicate hgroup] at hc
    have hsplit : ['f', 'i', 'l', 'e', ':'] ++ ['%', '2', '5'] = ['f', 'i', 'l', 'e', ':', '%', '2', '5'] := rfl
    exact hsplit ▸ List.mem_append_right _ hc

theorem size_quote_bigHandle (i : Nat) : Utf8.size (Json.quote (bigHandle i)) = 7 + 3 * (920 + i) := by
  have hplain : ∀ c ∈ ['f', 'i', 'l', 'e', ':', '%', '2', '5'], Json.escapeChar c = [c] ∧ c.toNat < 0x80 := by
    simp only [List.forall_mem_cons]
    exact ⟨⟨rfl, by decide⟩, ⟨rfl, by decide⟩, ⟨rfl, by decide⟩, ⟨rfl, by decide⟩, ⟨rfl, by decide⟩, ⟨rfl, by decide⟩, ⟨rfl, by decide⟩,
      ⟨rfl, by decide⟩, nofun⟩
  have hescape : (bigHandle i).flatMap Json.escapeChar = bigHandle i := by
    rw [List.flatMap_congr fun c hc => (hplain c (mem_bigHandle hc)).1]
    exact List.flatMap_singleton' _
  have hascii : ∀ c ∈ '"' :: bigHandle i ++ ['"'], c.toNat < 0x80 := by
    intro c hc
    simp only [List.mem_append, List.mem_cons, List.not_mem_nil, or_false] at hc
    rcases hc with (rfl | hc) | rfl
    · decide
    · exact (hplain c (mem_bigHandle hc)).2
    · decide
  rw [Json.quote, hescape, Utf8.size_ascii hascii, List.length_append, List.length_cons, length_bigHandle, List.length_singleton]
  omega

theorem size_strings (texts : List Text) :
    Utf8.size (Json.renderRows (texts.map .str)) = (texts.map fun text => Utf8.size (Json.quote text) + 1).sum := by
  induction texts with
  | nil => rfl
  | cons text texts ih =>
    rw [List.map_cons, Json.renderRows, Json.render, List.map_cons, List.sum_cons, ← ih]
    simp only [List.cons_append, Utf8.size_cons, Utf8.size_append]
    have hcomma : (',' : Char).utf8Size = 1 := by decide
    omega

theorem length_bigCall : bigCall.encode.length = 183268 := by
  have hrows : (Json.arr (bigCall.targetHandles.map .str)).size = 183201 := by
    have hsum : Utf8.size (Json.renderRows (bigCall.targetHandles.map .str)) = 183200 := by
      rw [size_strings, bigCall, List.map_map]
      have hone : ((fun text => Utf8.size (Json.quote text) + 1) ∘ bigHandle) = fun i => 7 + 3 * (920 + i) + 1 :=
        funext fun i => congrArg (· + 1) (size_quote_bigHandle i)
      rw [hone]
      decide
    rw [Json.size_arr (by decide), hsum]
  have hnull : (Json.null).size = 4 := by decide
  have htool : (Json.str bigCall.tool).size = 8 := by decide
  have hts : (Json.num (.nat bigCall.ts.toNat)).size = 1 := by decide
  have hbytes : (Json.num (.nat bigCall.bytes.toNat)).size = 2 := by decide
  have hkeys : Json.keySize "ts".toList = 6 ∧ Json.keySize "tool".toList = 8 ∧ Json.keySize "target_handles".toList = 18 ∧
      Json.keySize "detail".toList = 10 ∧ Json.keySize "bytes".toList = 9 := by decide
  have hnil : Json.membersSize [] = 0 := rfl
  have hdetail : ((bigCall.detail.map Json.str).getD .null) = .null := rfl
  obtain ⟨h₁, h₂, h₃, h₄, h₅⟩ := hkeys
  rw [LedgerCall.encode, Utf8.length_bytes, LedgerCall.toJson, hdetail]
  change Json.size _ = _
  rw [Json.size_obj (List.cons_ne_nil _ _), Json.membersSize_cons, Json.membersSize_cons, Json.membersSize_cons, Json.membersSize_cons,
    Json.membersSize_cons, hnil, hrows, hnull, htool, hts, hbytes, h₁, h₂, h₃, h₄, h₅]

theorem parse_bigPath (i : Nat) : Protocol.Handle.parse (bigPath i) = none := by
  have hcons : bigPath i = '%' :: List.replicate (919 + i) '%' := by
    rw [bigPath, ← List.replicate_succ]
    congr 1
    omega
  rw [hcons]
  rfl

theorem ofFile_bigPath (i : Nat) : Protocol.Handle.ofFile (bigPath i) = some (.file (bigPath i)) := by
  have hall : ∀ c ∈ bigPath i, c = '%' := fun c hc => List.eq_of_mem_replicate hc
  have hslash : '/' ∉ bigPath i := fun hmem => absurd (hall _ hmem) (by decide)
  have hne : bigPath i ≠ [] := by
    intro hnil
    have := congrArg List.length hnil
    rw [bigPath, List.length_replicate, List.length_nil] at this
    omega
  have hhead : (bigPath i).head? ≠ some '/' := fun hhead => hslash (List.mem_of_mem_head? hhead)
  have hback : '\\' ∉ bigPath i := fun hmem => absurd (hall _ hmem) (by decide)
  have hcontrol : (bigPath i).any Protocol.Handle.isControl = false := by
    rw [List.any_eq_false]
    intro c hc
    rw [hall c hc]
    decide
  have hdots : bigPath i ≠ ['.', '.'] := by
    intro heq
    exact absurd (hall '.' (by rw [heq]; exact List.mem_cons_self)) (by decide)
  have hvalid : Protocol.Handle.validPath (bigPath i) = true := by
    rw [Protocol.Handle.validPath, List.splitOn_eq_singleton hslash, hcontrol]
    simp [hne, hhead, hback, hdots]
  rw [Protocol.Handle.ofFile, if_pos hvalid]

theorem collect_big {stripRoot : Text → Option Text} (hstrip : ∀ i, stripRoot (bigPath i) = none) {is : List Nat} {out : List Text}
    (hroom : out.length + is.length ≤ 64) (hnew : ∀ i ∈ is, bigHandle i ∉ out) (hsmall : ∀ i ∈ is, i < 64) (hdistinct : is.Nodup) :
    collectItems stripRoot true out (is.map fun i => .str (bigPath i)) = out ++ is.map bigHandle := by
  induction is generalizing out with
  | nil => exact (List.append_nil out).symm
  | cons i is ih =>
    obtain ⟨hnotMem, hdistinct⟩ := List.nodup_cons.mp hdistinct
    rw [List.length_cons] at hroom
    have hsize : Utf8.size (bigPath i) ≤ MAX_HANDLE_BYTES := by
      have hi := hsmall i List.mem_cons_self
      rw [Utf8.size_ascii fun c hc => by rw [List.eq_of_mem_replicate hc]; decide, bigPath, List.length_replicate, MAX_HANDLE_BYTES]
      omega
    have hitem : collect stripRoot true out (.str (bigPath i)) = out ++ [bigHandle i] := by
      rw [collect, MAX_HANDLES, if_neg (by omega), addText, if_pos hsize, handleOf, parse_bigPath]
      dsimp only
      rw [if_pos rfl, hstrip, Option.getD_none, ofFile_bigPath]
      dsimp only
      rw [if_neg (by simpa [bigHandle] using hnew i List.mem_cons_self)]
      rfl
    rw [List.map_cons, collectItems, hitem, ih, List.map_cons, List.append_assoc, List.singleton_append]
    · rw [List.length_append, List.length_singleton]
      omega
    · intro j hj hmem
      rcases List.mem_append.mp hmem with hmem | hmem
      · exact hnew j (List.mem_cons_of_mem _ hj) hmem
      · have hlength := congrArg List.length (List.mem_singleton.mp hmem)
        rw [length_bigHandle, length_bigHandle] at hlength
        have hsame : j = i := by omega
        exact hnotMem (hsame ▸ hj)
    · exact fun j hj => hsmall j (List.mem_cons_of_mem _ hj)
    · exact hdistinct

theorem responseHandles_served {stripRoot : Text → Option Text} (hstrip : ∀ i, stripRoot (bigPath i) = none) :
    responseHandles stripRoot served = bigCall.targetHandles := by
  have hkey : isPathKey "files".toList = true := by decide
  have hskip : SKIP_KEYS.contains "files".toList = false := by decide
  have hitems := @collect_big _ hstrip (List.range 64) [] (by decide) (fun _ _ => List.not_mem_nil)
    (fun i hi => List.mem_range.mp hi) List.nodup_range
  have hserves : ∀ items, servesNothing [("files".toList, .arr items)] = false := fun items => rfl
  have hopen : ¬MAX_HANDLES ≤ ([] : List Text).length := by decide
  rw [responseHandles, served, collect, if_neg hopen, hserves, if_neg Bool.false_ne_true, collectMembers, hskip,
    if_neg Bool.false_ne_true, hkey, collect, if_neg hopen, hitems]
  rfl

/-- A ledger of so many whole records of one call. -/
def lines (call : LedgerCall) (n : Nat) : List UInt8 := (List.replicate n (call.encode ++ [NEWLINE])).flatten

theorem length_lines (call : LedgerCall) (n : Nat) : (lines call n).length = n * (call.encode.length + 1) := by
  induction n with
  | zero => rw [Nat.zero_mul]; rfl
  | succ n ih =>
    rw [lines, List.replicate_succ, List.flatten_cons, List.length_append, ← lines, ih, List.length_append, List.length_singleton,
      Nat.succ_mul]
    omega

theorem repair_lines (call : LedgerCall) (n : Nat) : repair (lines call n) = [] := by
  cases n with
  | zero => rfl
  | succ n =>
    rw [lines, List.replicate_succ', List.flatten_append, List.flatten_singleton, ← List.append_assoc, repair, List.getLast?_concat]
    rfl

theorem write_lines {call : LedgerCall} {n : Nat} {file : Option (List UInt8)} (hfile : file.getD [] = lines call n)
    (hroom : n * (call.encode.length + 1) < MAX_LEDGER_BYTES) :
    ((Append.mk call none).write file).getD [] = lines call (n + 1) ∧ (Append.mk call none).completes (file.getD []) = true ∧
      jsonEnd (file.getD []) call = call.encode.length := by
  have hopen : ¬MAX_LEDGER_BYTES ≤ (lines call n).length := by
    rw [length_lines]
    omega
  have hend : jsonEnd (lines call n) call = call.encode.length := by
    rw [jsonEnd, repair_lines, List.length_nil, Nat.zero_add]
  refine ⟨?_, ?_, by rw [hfile, hend]⟩
  · rw [Append.write, hfile, if_neg hopen, Option.getD_some, Append.cut, lineOf, repair_lines, List.nil_append, lines, lines,
      List.replicate_succ', List.flatten_append, List.flatten_singleton]
  · rw [hfile, Append.completes, Bool.and_eq_true, decide_eq_true_eq, decide_eq_true_eq, hend, Append.cut, lineOf, repair_lines,
      List.nil_append, List.length_append]
    exact ⟨Nat.lt_of_not_le hopen, Nat.le_add_right _ _⟩

/-- Records that each begin below the cap, the last of which ends behind what is read. -/
theorem not_allFit_lines {call : LedgerCall} {total : Nat} (hroom : total * (call.encode.length + 1) < MAX_LEDGER_BYTES)
    (hlong : READ_LIMIT < total * (call.encode.length + 1) + call.encode.length) {n more : Nat} {file : Option (List UInt8)}
    (hfile : file.getD [] = lines call n) (hn : n + more = total) :
    ¬AllFit file (List.replicate (more + 1) ⟨call, none⟩) ∧ completed file (List.replicate (more + 1) ⟨call, none⟩) = List.replicate (more + 1) call := by
  induction more generalizing n file with
  | zero =>
    rw [Nat.add_zero] at hn
    subst hn
    obtain ⟨-, hcompletes, hend⟩ := write_lines hfile hroom
    rw [List.replicate_succ, AllFit, completed, if_pos hcompletes, hend, hfile, length_lines]
    refine ⟨fun hfit => ?_, rfl⟩
    have := hfit.1 (hfile ▸ hcompletes)
    omega
  | succ more ih =>
    have hbelow : n * (call.encode.length + 1) < MAX_LEDGER_BYTES :=
      (Nat.mul_le_mul_right _ (by omega)).trans_lt hroom
    obtain ⟨hwrite, hcompletes, -⟩ := write_lines hfile hbelow
    obtain ⟨hnot, hcompleted⟩ := ih hwrite (by omega)
    rw [List.replicate_succ, AllFit, completed, if_pos hcompletes, hcompleted]
    exact ⟨fun hfit => hnot hfit.2, rfl⟩

/-- The handles of a response fill twelve records, and the last of them is not read back. -/
theorem last_record_lost :
    responseHandles (fun _ => none) served = bigCall.targetHandles ∧
      completed none (List.replicate 12 ⟨bigCall, none⟩) = List.replicate 12 bigCall ∧
      (readSessionLedger (decodeOne bigCall) (ledgerAfter none (List.replicate 12 ⟨bigCall, none⟩)) 0).calls ≠ List.replicate 12 bigCall := by
  have hroom : 11 * (bigCall.encode.length + 1) < MAX_LEDGER_BYTES := by
    rw [length_bigCall]
    decide
  have hlong : READ_LIMIT < 11 * (bigCall.encode.length + 1) + bigCall.encode.length := by
    rw [length_bigCall]
    decide
  obtain ⟨hnot, hcompleted⟩ := @not_allFit_lines _ _ hroom hlong 0 11 none rfl rfl
  refine ⟨responseHandles_served fun _ => rfl, hcompleted, fun hread => hnot ?_⟩
  have hdecodes : ∀ op ∈ List.replicate 12 (Append.mk bigCall none), Decodes (decodeOne bigCall) op.call := by
    intro op hop
    rw [List.eq_of_mem_replicate hop]
    exact decodes_one bigCall
  rw [read_calls hdecodes] at hread
  exact (seen_eq_iff none _).mp (hread.trans hcompleted.symm)

end Lost

end SessionLedger
end Graph
end CodeSage
