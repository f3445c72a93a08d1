import Traitor.Codec

namespace Traitor.Framing

open Lib.Strconv Protocol Traitor.Parser Codec

/-- A part of a reply that ends in a line end: a line, or a bulk with its header. -/
inductive Item
  | line (text : Bytes)
  | bulk (arg : Option Bytes)

def Item.toBytes : Item → Bytes
  | .line text => text ++ crlf
  | .bulk arg => bulkBytes arg

def countLine (n : Nat) : Item := .line (bytes "*" ++ formatNat n)

mutual

def items : Reply → List Item
  | .bulk arg => [.bulk arg]
  | .multiBulk args => countLine args.length :: args.map .bulk
  | .multiRaw replies => countLine replies.length :: itemsAll replies
  | .status status => [.line (bytes "+" ++ status)]
  | .int code => [.line (bytes ":" ++ formatInt code)]
  | .standardErr status => [.line (bytes "-" ++ status)]
  | .pong => [.line (bytes "+PONG")]
  | .ok => [.line (bytes "+OK")]
  | .nullBulk => [.bulk none]
  | .emptyMultiBulk => [.line (bytes "*0")]
  | .noReply => []
  | .queued => [.line (bytes "+QUEUED")]
  | .unknownErr => [.line (bytes "-Err unknown")]
  | .argNumErr cmd =>
      [.line (bytes "-ERR wrong number of arguments for '" ++ cmd ++ bytes "' command")]
  | .syntaxErr => [.line (bytes "-Err syntax error")]
  | .wrongTypeErr =>
      [.line (bytes "-WRONGTYPE Operation against a key holding the wrong kind of value")]

def itemsAll : List Reply → List Item
  | [] => []
  | reply :: replies => items reply ++ itemsAll replies

end

def itemBytes (l : List Item) : Bytes := l.flatMap Item.toBytes

@[simp] theorem itemBytes_nil : itemBytes [] = [] := rfl

@[simp] theorem itemBytes_cons (item : Item) (l : List Item) :
    itemBytes (item :: l) = item.toBytes ++ itemBytes l := rfl

theorem itemBytes_bulks (args : List (Option Bytes)) :
    itemBytes (args.map .bulk) = args.flatMap bulkBytes := by
  simp [itemBytes, List.flatMap_map, Item.toBytes]

mutual

theorem toBytes_eq (reply : Reply) : reply.toBytes = itemBytes (items reply) := by
  cases reply with
  | multiBulk args =>
      simp only [Reply.toBytes, multiBulkBytes, items]
      rw [← itemBytes_bulks]
      simp [itemBytes, countLine, Item.toBytes]
  | multiRaw replies =>
      simp only [Reply.toBytes, items]
      rw [toBytesAll_eq replies]
      simp [itemBytes, countLine, Item.toBytes]
  | _ => simp [Reply.toBytes, items, itemBytes, Item.toBytes, bulkBytes]

theorem toBytesAll_eq (replies : List Reply) : toBytesAll replies = itemBytes (itemsAll replies) := by
  cases replies with
  | nil => rfl
  | cons reply replies =>
      rw [toBytesAll, itemsAll, toBytes_eq reply, toBytesAll_eq replies]
      simp [itemBytes]

end

/-- In the middle of a reply no status is sent. -/
theorem parse0_head_not_status {state : ReadState} (hmulti : state.readingMultiLine = true)
    (input status : Bytes) : (parse0 state input).head? ≠ some (.reply (.status status)) := by
  induction hn : input.length using Nat.strongRecOn generalizing state input with
  | _ n ih =>
      rw [parse0]
      split
      · simp
      · simp [Payload.error, Payload.reply]
      · simp [Payload.error, Payload.reply]
      · rename_i msg rest state' hr
        have hlt := readLine_line_length hr
        obtain ⟨hmulti', -⟩ := readLine_state hr
        rw [hmulti] at hmulti'
        rw [parseLine_multi hmulti', receiveBody]
        cases hb : readBody msg state' with
        | none => simp [Payload.error, Payload.reply]
        | some state'' =>
            have hm : state''.readingMultiLine = true := by
              rw [readBody] at hb
              split at hb
              · obtain ⟨bulkLen, _, rfl⟩ := Option.map_eq_some_iff.mp hb
                split <;> exact hmulti'
              · rw [← Option.some.inj hb]
                exact hmulti'
            simp only [finish]
            split
            · split_ifs <;> simp [Payload.reply]
            · exact ih rest.length (by omega) hm rest rfl

theorem readBytes_append_right {delim : UInt8} {m msg left : Bytes}
    (h : readBytes delim m = some (msg, left)) (rest : Bytes) :
    readBytes delim (m ++ rest) = some (msg, left ++ rest) := by
  induction m generalizing msg left with
  | nil => simp [readBytes] at h
  | cons b m ih =>
      rw [readBytes] at h
      rw [List.cons_append, readBytes]
      split at h
      · rename_i hb
        simp only [Option.some.injEq, Prod.mk.injEq] at h
        rw [if_pos hb, ← h.1, ← h.2]
      · rename_i hb
        obtain ⟨⟨msg', left'⟩, hr, he⟩ := Option.map_eq_some_iff.mp h
        simp only [Prod.mk.injEq] at he
        rw [if_neg hb, ih hr, ← he.1, ← he.2]
        rfl

theorem readBytes_of_mem {delim : UInt8} {m : Bytes} (h : delim ∈ m) :
    ∃ msg left, readBytes delim m = some (msg, left) := by
  induction m with
  | nil => simp at h
  | cons b m ih =>
      rw [readBytes]
      by_cases hb : b = delim
      · exact ⟨_, _, if_pos hb⟩
      · obtain ⟨msg, left, hr⟩ := ih ((List.mem_cons.mp h).resolve_left fun he => hb he.symm)
        exact ⟨b :: msg, left, by rw [if_neg hb, hr]; rfl⟩

/-- A line at the start of a reply sends a payload, or opens a reply of more lines. -/
theorem receiveHeader_zero (msg : Bytes) :
    (∃ p, (receiveHeader msg .zero).1 = [p] ∧ p.err ≠ some .eof) ∨
      (receiveHeader msg .zero).1 = [] ∧
        (receiveHeader msg .zero).2.readingMultiLine = true := by
  unfold receiveHeader
  split
  · cases h : parseMultiBulkHeader (42 :: _) .zero with
    | none => exact .inl ⟨_, rfl, by simp [Payload.error]⟩
    | some state =>
        dsimp only
        split
        · exact .inl ⟨_, rfl, by simp [Payload.reply]⟩
        · rename_i hcount
          refine .inr ⟨rfl, ?_⟩
          obtain ⟨n, -, rfl⟩ := Option.map_eq_some_iff.mp h
          split at hcount
          · exact absurd rfl hcount
          · rename_i hn
            rw [if_neg hn]
  · cases h : parseBulkHeader (36 :: _) .zero with
    | none => exact .inl ⟨_, rfl, by simp [Payload.error]⟩
    | some state =>
        cases state with
        | none => exact .inl ⟨_, rfl, by simp [Payload.reply]⟩
        | some state =>
            refine .inr ⟨rfl, ?_⟩
            obtain ⟨n, -, hn⟩ := Option.bind_eq_some_iff.mp h
            dsimp only
            split_ifs at hn
            · cases hn
            · simp only [Option.some.injEq] at hn
              rw [← hn]
  · refine .inl ⟨_, rfl, ?_⟩
    unfold parseSingleLineReply
    dsimp only
    split
    · simp [Payload.reply]
    · simp [Payload.reply]
    · split <;> simp [Payload.reply, Payload.error]
    · simp [Payload.reply]

theorem parse0_zero_ok :
    (parse0 .zero (Reply.ok.toBytes)).head? = some (.reply (.status (bytes "OK"))) := by
  have hr : readLine Reply.ok.toBytes .zero = .line Reply.ok.toBytes [] .zero := by
    have h := @readLine_normal (bytes "+OK") (by decide) [] .zero rfl
    rwa [List.append_nil] at h
  rw [parse0_line hr]
  rfl

/-- What has a line in it does not go unnoticed at the start of a reply. -/
theorem exists_noticed {m : Bytes} (h : 10 ∈ m) :
    ∃ rest, parse0 .zero (m ++ rest) ≠ parse0 .zero rest := by
  by_contra hnone
  have hall (rest : Bytes) : parse0 .zero (m ++ rest) = parse0 .zero rest :=
    not_not.mp fun hne => hnone ⟨rest, hne⟩
  obtain ⟨msg, left, hr⟩ := readBytes_of_mem h
  have hread (rest : Bytes) : readLine (m ++ rest) .zero =
      if msg.length < 2 then .panic
      else if msg.getD (msg.length - 2) 0 ≠ 13 then .protocolErr msg (left ++ rest)
      else .line msg (left ++ rest) .zero := by
    have hzero : ReadState.zero.bulkLen = 0 := rfl
    rw [readLine, if_pos hzero, readBytes_append_right hr]
  have hnil := hall []
  rw [List.append_nil, parse0_nil] at hnil
  have hread₀ := hread []
  rw [List.append_nil] at hread₀
  by_cases hshort : msg.length < 2
  · rw [if_pos hshort] at hread₀
    rw [parse0_panic hread₀] at hnil
    simp at hnil
  · by_cases hcr : msg.getD (msg.length - 2) 0 ≠ 13
    · rw [if_neg hshort, if_pos hcr] at hread₀
      rw [parse0] at hnil
      split at hnil <;> simp_all [Payload.error]
    · simp only [if_neg hshort, if_neg hcr] at hread
      have hstep (rest : Bytes) : parse0 .zero (m ++ rest) =
          (receiveHeader msg .zero).1 ++ parse0 (receiveHeader msg .zero).2 (left ++ rest) :=
        parse0_line (hread rest)
      rcases receiveHeader_zero msg with ⟨p, hp, hne⟩ | ⟨hp, hmulti⟩
      · rw [← List.append_nil m, hstep, hp] at hnil
        simp only [List.singleton_append, List.cons.injEq] at hnil
        rw [hnil.1] at hne
        exact hne rfl
      · have hok := hall Reply.ok.toBytes
        rw [hstep, hp, List.nil_append] at hok
        have hhead := parse0_head_not_status hmulti (left ++ Reply.ok.toBytes) (bytes "OK")
        rw [hok] at hhead
        exact hhead parse0_zero_ok

/-- As a part of a multi bulk it is one argument, if not the same one. -/
def Item.Kept : Item → Prop
  | .line text => 10 ∉ text
  | .bulk none => True
  | .bulk (some arg) => arg.length + 2 < 2 ^ 63 ∧
      ∀ s, arg = 36 :: s → ∃ n : Int, parseInt 64 s = some n ∧ n < 0

def Item.Rejected : Item → Prop
  | .bulk (some arg) => arg.length + 2 < 2 ^ 63 ∧ ∃ s, arg = 36 :: s ∧ parseInt 64 s = none
  | _ => False

/-- It is taken for a header with a length, or for more than one line. -/
def Item.Misread : Item → Prop
  | .line text => 10 ∈ text
  | .bulk none => False
  | .bulk (some arg) => ∃ s, ∃ n : Int, arg = 36 :: s ∧ parseInt 64 s = some n ∧ 0 ≤ n

theorem take_crlf (text : Bytes) : (text ++ crlf).take ((text ++ crlf).length - 2) = text := by
  simp [crlf]

/-- What the parser does with a line that is read as an argument. -/
theorem parse0_push {count : Nat} {args : List Bytes} {arg input msg rest : Bytes} {bulkLen : Nat}
    (hr : readLine input (reading count args bulkLen) = .line msg rest (reading count args 0))
    (hb : readBody msg (reading count args 0) = some (reading count (args ++ [arg]) 0)) :
    parse0 (reading count args bulkLen) input =
      if args.length + 1 = count then decoded (args ++ [arg]) :: parse0 .zero rest
      else parse0 (reading count (args ++ [arg]) 0) rest := by
  rw [parse0_line hr, parseLine_multi rfl, receiveBody, hb]
  by_cases hlast : args.length + 1 = count
  · have hf : (reading count (args ++ [arg]) 0).finished = true := by
      simp [ReadState.finished, reading, ← hlast]
    simp only [finish, hf, if_true, hlast]
    simp [reading, decoded]
  · have hf : (reading count (args ++ [arg]) 0).finished = false := by
      simp [ReadState.finished, reading, hlast]
    simp [finish, hf, hlast]

theorem parse0_protocolErr {state : ReadState} {input msg rest : Bytes}
    (h : readLine input state = .protocolErr msg rest) :
    parse0 state input = .error (.protocol msg) :: parse0 .zero rest := by
  rw [parse0]
  split <;> simp_all

theorem parse0_reject {state state' : ReadState} {input msg rest : Bytes}
    (hr : readLine input state = .line msg rest state') (hmulti : state'.readingMultiLine = true)
    (hb : readBody msg state' = none) :
    parse0 state input = .error (.protocol msg) :: parse0 .zero rest := by
  rw [parse0_line hr, parseLine_multi hmulti, receiveBody, hb]
  rfl

theorem readLine_arg {count : Nat} {args : List Bytes} {arg : Bytes} (hlen : arg.length + 2 < 2 ^ 63)
    (rest : Bytes) : readLine (arg ++ crlf ++ rest) (reading count args arg.length) =
      .line (arg ++ crlf) rest (reading count args 0) := by
  by_cases hnil : arg = []
  · subst hnil
    exact readLine_normal (by simp) rest rfl
  · exact readLine_bulk hnil hlen rest rfl rfl

theorem bulkBytes_some (arg : Bytes) (rest : Bytes) : bulkBytes (some arg) ++ rest =
    bytes "$" ++ formatNat arg.length ++ crlf ++ (arg ++ crlf ++ rest) := by
  simp [bulkBytes]

theorem parse0_kept {item : Item} (hkept : item.Kept)
    (hline : ∀ text, item = .line text → text.head? ≠ some 36) {count : Nat} {args : List Bytes}
    (hcount : args.length < count) :
    ∃ arg, ∀ rest, parse0 (reading count args 0) (item.toBytes ++ rest) =
      if args.length + 1 = count then decoded (args ++ [arg]) :: parse0 .zero rest
      else parse0 (reading count (args ++ [arg]) 0) rest := by
  cases item with
  | line text =>
      refine ⟨text, fun rest => parse0_push (readLine_normal hkept rest rfl) ?_⟩
      have hhead := hline text rfl
      rw [readBody, take_crlf]
      split
      · exact absurd rfl hhead
      · rfl
  | bulk arg =>
      cases arg with
      | none =>
          refine ⟨[], fun rest => parse0_push (readLine_normal (by decide) rest rfl) ?_⟩
          rfl
      | some arg =>
          obtain ⟨hlen, hdollar⟩ := hkept
          have hstep (rest : Bytes) :
              parse0 (reading count args 0) ((Item.bulk (some arg)).toBytes ++ rest) =
                parse0 (reading count args arg.length) (arg ++ crlf ++ rest) := by
            rw [Item.toBytes, bulkBytes_some, parse0_length hcount (by omega)]
          by_cases hhead : Dollar arg
          · obtain ⟨s, rfl⟩ := List.head?_eq_some_iff.mp hhead
            obtain ⟨n, hn, hneg⟩ := hdollar s rfl
            refine ⟨[], fun rest => ?_⟩
            rw [hstep]
            apply parse0_push (readLine_arg hlen rest)
            rw [readBody, take_crlf]
            simp only [hn, Option.map_some, if_pos hneg]
            rfl
          · refine ⟨arg, fun rest => ?_⟩
            rw [hstep, parse0_body hhead hlen]

theorem parse0_rejected {item : Item} (h : item.Rejected) {count : Nat} {args : List Bytes}
    (hcount : args.length < count) :
    ∃ msg, ∀ rest, parse0 (reading count args 0) (item.toBytes ++ rest) =
      .error (.protocol msg) :: parse0 .zero rest := by
  cases item with
  | line text => exact h.elim
  | bulk arg =>
      cases arg with
      | none => exact h.elim
      | some arg =>
          obtain ⟨hlen, s, rfl, hn⟩ := h
          refine ⟨36 :: s ++ crlf, fun rest => ?_⟩
          rw [Item.toBytes, bulkBytes_some, parse0_length hcount (by omega)]
          apply parse0_reject (readLine_arg hlen rest) rfl
          rw [readBody, take_crlf]
          simp only [hn, Option.map_none]

/-- One payload is sent, and what follows is read like the start of a reply. -/
def Stands (state : ReadState) (m : Bytes) : Prop :=
  ∃ p, ∀ rest, parse0 state (m ++ rest) = p :: parse0 .zero rest

theorem toBytes_noticed (item : Item) : (10 : UInt8) ∈ item.toBytes := by
  cases item with
  | line text => simp [Item.toBytes, crlf]
  | bulk arg => cases arg <;> simp [Item.toBytes, bulkBytes, crlf]

theorem Stands.nothing_left {state : ReadState} {m left : Bytes} {q : Payload} (h : Stands state m)
    (hstep : ∀ rest, parse0 state (m ++ rest) = q :: parse0 .zero (left ++ rest)) : 10 ∉ left := by
  intro hleft
  obtain ⟨p, hp⟩ := h
  obtain ⟨rest, hne⟩ := exists_noticed hleft
  have heq := (hstep rest).symm.trans (hp rest)
  exact hne (List.cons.inj heq).2

theorem eq_nil_of_not_noticed {l : List Item} (h : 10 ∉ itemBytes l) : l = [] := by
  cases l with
  | nil => rfl
  | cons item l =>
      rw [itemBytes_cons] at h
      exact absurd (List.mem_append_left _ (toBytes_noticed item)) h

/-- An item that is too long ends the reply before its bytes end, or panics. -/
theorem not_stands_of_long {count : Nat} {args : List Bytes} {arg : Bytes}
    (hcount : args.length < count) (hlen : 2 ^ 63 ≤ arg.length + 2) (more : Bytes) :
    ¬ Stands (reading count args 0) ((Item.bulk (some arg)).toBytes ++ more) := by
  intro hs
  by_cases hrange : arg.length < 2 ^ 63
  · obtain ⟨p, hp⟩ := hs
    have hpanic (rest : Bytes) : readLine rest (reading count args arg.length) = .panic := by
      rw [readLine, if_neg (by simp only [reading]; omega), if_pos (by simp only [reading]; omega)]
    have h := hp []
    rw [List.append_assoc, Item.toBytes, bulkBytes_some, parse0_length hcount hrange,
      parse0_panic (hpanic _)] at h
    cases h
  · have hline : (10 : UInt8) ∉ bytes "$" ++ formatNat arg.length := by
      simp [bytes, newline_not_mem_formatNat]
    have hb : readBody (bytes "$" ++ formatNat arg.length ++ crlf) (reading count args 0) = none := by
      have hparse : parseInt 64 (formatNat arg.length) = none := by
        rw [parseInt_formatNat, if_neg hrange]
      rw [readBody, take_crlf]
      simp [bytes, hparse]
    have hleft : 10 ∉ arg ++ crlf ++ more := hs.nothing_left fun rest => by
      have h := parse0_reject (readLine_normal hline (arg ++ crlf ++ more ++ rest) rfl) rfl hb
      rw [← h, Item.toBytes, bulkBytes]
      simp
    exact hleft (by simp [crlf])

def Body : List Item → Prop
  | [] => True
  | [item] => item.Kept ∨ item.Rejected
  | item :: l => item.Kept ∧ Body l

def Lines (l : List Item) : Prop := ∀ text, .line text ∈ l → text.head? ≠ some 36

theorem stands_of_body {l : List Item} (hne : l ≠ []) (hlines : Lines l) (hbody : Body l)
    {count : Nat} {args : List Bytes} (hcount : args.length + l.length = count) :
    Stands (reading count args 0) (itemBytes l) := by
  induction l generalizing args with
  | nil => exact absurd rfl hne
  | cons item l ih =>
      rw [List.length_cons] at hcount
      have hlt : args.length < count := by omega
      have hitem : ∀ text, item = .line text → text.head? ≠ some 36 :=
        fun text he => hlines text (he ▸ List.mem_cons_self)
      cases l with
      | nil =>
          rcases hbody with hkept | hrejected
          · obtain ⟨arg, harg⟩ := parse0_kept hkept hitem hlt
            refine ⟨decoded (args ++ [arg]), fun rest => ?_⟩
            rw [itemBytes_cons, itemBytes_nil, List.append_nil, harg, if_pos (by simpa using hcount)]
          · obtain ⟨msg, hmsg⟩ := parse0_rejected hrejected hlt
            refine ⟨.error (.protocol msg), fun rest => ?_⟩
            rw [itemBytes_cons, itemBytes_nil, List.append_nil, hmsg]
      | cons next l =>
          rw [List.length_cons] at hcount
          obtain ⟨arg, harg⟩ := parse0_kept hbody.1 hitem hlt
          have hnext : Stands (reading count (args ++ [arg]) 0) (itemBytes (next :: l)) :=
            ih (by simp) (fun text ht => hlines text (List.mem_cons_of_mem _ ht)) hbody.2
              (by simp; omega)
          obtain ⟨p, hp⟩ := hnext
          refine ⟨p, fun rest => ?_⟩
          rw [itemBytes_cons, List.append_assoc, harg, if_neg (by omega), hp]

/-- Conversely, when no item is misread. -/
theorem body_of_stands {l : List Item} (hlines : Lines l) (hplain : ∀ item ∈ l, ¬ item.Misread)
    {count : Nat} {args : List Bytes} (hlt : args.length < count)
    (hcount : count ≤ args.length + l.length) (h : Stands (reading count args 0) (itemBytes l)) :
    Body l ∧ args.length + l.length = count := by
  induction l generalizing args with
  | nil =>
      rw [List.length_nil] at hcount
      omega
  | cons item l ih =>
      rw [List.length_cons] at hcount ⊢
      rw [itemBytes_cons] at h
      have hitem : ∀ text, item = .line text → text.head? ≠ some 36 :=
        fun text he => hlines text (he ▸ List.mem_cons_self)
      by_cases hkept : item.Kept
      · obtain ⟨arg, harg⟩ := parse0_kept hkept hitem hlt
        by_cases hlast : args.length + 1 = count
        · have hleft : 10 ∉ itemBytes l := h.nothing_left fun rest => by
            rw [List.append_assoc, harg, if_pos hlast]
          obtain rfl := eq_nil_of_not_noticed hleft
          exact ⟨.inl hkept, hlast⟩
        · have hrest : Stands (reading count (args ++ [arg]) 0) (itemBytes l) := by
            obtain ⟨p, hp⟩ := h
            refine ⟨p, fun rest => ?_⟩
            rw [← hp, List.append_assoc, harg, if_neg hlast]
          obtain ⟨hbody, hlength⟩ := ih (fun text ht => hlines text (List.mem_cons_of_mem _ ht))
            (fun i hi => hplain i (List.mem_cons_of_mem _ hi)) (by simp; omega) (by simp; omega) hrest
          rw [List.length_append, List.length_singleton] at hlength
          refine ⟨?_, by omega⟩
          cases l with
          | nil => exact .inl hkept
          | cons next l => exact ⟨hkept, hbody⟩
      · by_cases hrejected : item.Rejected
        · obtain ⟨msg, hmsg⟩ := parse0_rejected hrejected hlt
          have hleft : 10 ∉ itemBytes l := h.nothing_left fun rest => by
            rw [List.append_assoc, hmsg]
          obtain rfl := eq_nil_of_not_noticed hleft
          rw [List.length_nil] at hcount
          exact ⟨.inr hrejected, by simp; omega⟩
        · have hmis := hplain item List.mem_cons_self
          cases item with
          | line text => exact absurd (not_not.mp hkept) hmis
          | bulk arg =>
              cases arg with
              | none => exact absurd trivial hkept
              | some arg =>
                  by_cases hlen : arg.length + 2 < 2 ^ 63
                  · refine absurd ⟨hlen, fun s hs => ?_⟩ hkept
                    cases hn : parseInt 64 s with
                    | none => exact absurd ⟨hlen, s, hs, hn⟩ hrejected
                    | some n =>
                        refine ⟨n, rfl, ?_⟩
                        by_contra hneg
                        exact hmis ⟨s, n, hs, hn, by omega⟩
                  · exact absurd h (not_stands_of_long hlt (Nat.not_lt.mp hlen) _)

theorem readBytes_head {delim b : UInt8} {m msg left : Bytes}
    (h : readBytes delim (b :: m) = some (msg, left)) : msg.head? = some b := by
  rw [readBytes] at h
  split at h
  · simp only [Option.some.injEq, Prod.mk.injEq] at h
    simp [← h.1]
  · obtain ⟨⟨msg', left'⟩, -, he⟩ := Option.map_eq_some_iff.mp h
    simp only [Prod.mk.injEq] at he
    simp [← he.1]

theorem receiveHeader_single {msg : Bytes} (hmulti : msg.head? ≠ some 42) (hbulk : msg.head? ≠ some 36)
    (state : ReadState) : receiveHeader msg state = ([parseSingleLineReply msg], .zero) := by
  unfold receiveHeader
  split
  · exact absurd rfl hmulti
  · exact absurd rfl hbulk
  · rfl

/-- A reply of a single line stands by itself exactly when it is one line. -/
theorem stands_line {b : UInt8} {text : Bytes} (hmulti : b ≠ 42) (hbulk : b ≠ 36) :
    Stands .zero (b :: text ++ crlf) ↔ 10 ∉ b :: text := by
  have hzero : ReadState.zero.bulkLen = 0 := rfl
  constructor
  · intro h hmem
    obtain ⟨msg, left, hr⟩ := readBytes_of_mem hmem
    have hhead := readBytes_head hr
    have hread (rest : Bytes) : readLine (b :: text ++ crlf ++ rest) .zero =
        if msg.length < 2 then .panic
        else if msg.getD (msg.length - 2) 0 ≠ 13 then .protocolErr msg (left ++ crlf ++ rest)
        else .line msg (left ++ crlf ++ rest) .zero := by
      rw [readLine, if_pos hzero, readBytes_append_right (readBytes_append_right hr crlf) rest]
    have hnoticed : (10 : UInt8) ∈ left ++ crlf := by simp [crlf]
    by_cases hshort : msg.length < 2
    · obtain ⟨p, hp⟩ := h
      have hnil := hp []
      rw [parse0_panic (by rw [hread, if_pos hshort])] at hnil
      cases hnil
    · by_cases hcr : msg.getD (msg.length - 2) 0 ≠ 13
      · refine h.nothing_left (q := .error (.protocol msg)) (fun rest => ?_) hnoticed
        have hline := hread rest
        rw [if_neg hshort, if_pos hcr] at hline
        exact parse0_protocolErr hline
      · refine h.nothing_left (q := parseSingleLineReply msg) (fun rest => ?_) hnoticed
        have hline := hread rest
        rw [if_neg hshort, if_neg hcr] at hline
        have hsingle := @receiveHeader_single msg (by simp [hhead, hmulti]) (by simp [hhead, hbulk]) .zero
        rw [parse0_line hline]
        change (receiveHeader msg .zero).1 ++ parse0 (receiveHeader msg .zero).2 _ = _
        rw [hsingle]
        rfl
  · intro hmem
    refine ⟨parseSingleLineReply (b :: text ++ crlf), fun rest => ?_⟩
    rw [parse0_line (readLine_normal hmem rest rfl)]
    have hsingle := @receiveHeader_single (b :: text ++ crlf) (by simp [hmulti]) (by simp [hbulk]) .zero
    change (receiveHeader (b :: text ++ crlf) .zero).1 ++
      parse0 (receiveHeader (b :: text ++ crlf) .zero).2 rest = _
    rw [hsingle]
    rfl

def readingBulk (args : List Bytes) (bulkLen : Nat) : ReadState := ⟨true, 1, 36, args, bulkLen, false⟩

theorem parse0_bulkHeader {n : Nat} (hn : n < 2 ^ 63) (rest : Bytes) :
    parse0 .zero (bytes "$" ++ formatNat n ++ crlf ++ rest) = parse0 (readingBulk [] n) rest := by
  have hline : (10 : UInt8) ∉ bytes "$" ++ formatNat n := by
    simp [bytes, newline_not_mem_formatNat]
  have hp : parseBulkHeader (36 :: (formatNat n ++ crlf)) .zero = some (some (readingBulk [] n)) := by
    have ha := headerArg_formatNat 36 n
    rw [List.cons_append] at ha
    rw [parseBulkHeader, ha, parseInt_formatNat, if_pos hn, Option.bind_some, if_neg (by omega),
      if_pos (by omega)]
    rfl
  rw [parse0_line (readLine_normal hline rest rfl)]
  change (receiveHeader (36 :: (formatNat n ++ crlf)) .zero).1 ++
    parse0 (receiveHeader (36 :: (formatNat n ++ crlf)) .zero).2 rest = _
  simp only [receiveHeader, hp, List.nil_append]

theorem parse0_bulkHeader_error {n : Nat} (hn : 2 ^ 63 ≤ n) (rest : Bytes) :
    parse0 .zero (bytes "$" ++ formatNat n ++ crlf ++ rest) =
      .error (.protocol (bytes "$" ++ formatNat n ++ crlf)) :: parse0 .zero rest := by
  have hline : (10 : UInt8) ∉ bytes "$" ++ formatNat n := by
    simp [bytes, newline_not_mem_formatNat]
  have hp : parseBulkHeader (36 :: (formatNat n ++ crlf)) .zero = none := by
    have ha := headerArg_formatNat 36 n
    rw [List.cons_append] at ha
    rw [parseBulkHeader, ha, parseInt_formatNat, if_neg (by omega), Option.bind_none]
  rw [parse0_line (readLine_normal hline rest rfl)]
  change (receiveHeader (36 :: (formatNat n ++ crlf)) .zero).1 ++
    parse0 (receiveHeader (36 :: (formatNat n ++ crlf)) .zero).2 rest = _
  simp only [receiveHeader, hp]
  rfl

theorem readLine_bulkArg {arg : Bytes} (hlen : arg.length + 2 < 2 ^ 63) (rest : Bytes) :
    readLine (arg ++ crlf ++ rest) (readingBulk [] arg.length) =
      .line (arg ++ crlf) rest (readingBulk [] 0) := by
  by_cases hnil : arg = []
  · subst hnil
    exact readLine_normal (by simp) rest rfl
  · exact readLine_bulk hnil hlen rest rfl rfl

theorem parse0_nil_length (state : ReadState) : (parse0 state []).length ≤ 1 := by
  have hr : readLine [] state = .panic ∨ readLine [] state = .ioErr .eof := by
    rw [readLine]
    split_ifs <;> simp_all [readBytes]
  rcases hr with hr | hr
  · simp [parse0_panic hr]
  · rw [parse0]
    split <;> simp_all

/-- What the parser does with the line of a bulk. -/
theorem parse0_bulkArg {arg rest : Bytes} (hlen : arg.length + 2 < 2 ^ 63) :
    parse0 .zero (bulkBytes (some arg) ++ rest) =
      (receiveBody (arg ++ crlf) (readingBulk [] 0)).1 ++
        parse0 (receiveBody (arg ++ crlf) (readingBulk [] 0)).2 rest := by
  rw [bulkBytes_some, parse0_bulkHeader (by omega), parse0_line (readLine_bulkArg hlen rest),
    parseLine_multi rfl]

theorem not_stands_bulk {arg : Bytes} (hlen : ¬ arg.length + 2 < 2 ^ 63) :
    ¬ Stands .zero (bulkBytes (some arg)) := by
  intro hs
  by_cases hrange : arg.length < 2 ^ 63
  · obtain ⟨p, hp⟩ := hs
    have hpanic (rest : Bytes) : readLine rest (readingBulk [] arg.length) = .panic := by
      rw [readLine, if_neg (by simp only [readingBulk]; omega),
        if_pos (by simp only [readingBulk]; omega)]
    have h := hp []
    rw [bulkBytes_some, parse0_bulkHeader hrange, parse0_panic (hpanic _)] at h
    cases h
  · have hleft : 10 ∉ arg ++ crlf := hs.nothing_left fun rest => by
      rw [bulkBytes_some, parse0_bulkHeader_error (Nat.not_lt.mp hrange)]
    exact hleft (by simp [crlf])

/-- A bulk stands by itself exactly when it is not taken for the header of another one. -/
theorem stands_bulk (arg : Option Bytes) :
    Stands .zero (bulkBytes arg) ↔ (Item.bulk arg).Kept ∨ (Item.bulk arg).Rejected := by
  cases arg with
  | none =>
      refine ⟨fun _ => .inl trivial, fun _ => ⟨.reply .nullBulk, fun rest => ?_⟩⟩
      have hr : readLine (bytes "$-1" ++ crlf ++ rest) .zero =
          .line (bytes "$-1" ++ crlf) rest .zero := readLine_normal (by decide) rest rfl
      rw [bulkBytes, parse0_line hr]
      rfl
  | some arg =>
      by_cases hlen : arg.length + 2 < 2 ^ 63
      · by_cases hdollar : Dollar arg
        · obtain ⟨s, rfl⟩ := List.head?_eq_some_iff.mp hdollar
          cases hn : parseInt 64 s with
          | none =>
              refine iff_of_true ⟨.error (.protocol (36 :: s ++ crlf)), fun rest => ?_⟩
                (.inr ⟨hlen, s, rfl, hn⟩)
              rw [parse0_bulkArg hlen, receiveBody, readBody, take_crlf]
              simp only [hn, Option.map_none]
              rfl
          | some n =>
              by_cases hneg : n < 0
              · refine iff_of_true ⟨.reply (.bulk (some [])), fun rest => ?_⟩
                  (.inl ⟨hlen, fun s' hs => ⟨n, (List.cons.inj hs).2 ▸ hn, hneg⟩⟩)
                rw [parse0_bulkArg hlen, receiveBody, readBody, take_crlf]
                simp only [hn, Option.map_some, if_pos hneg]
                rfl
              · apply iff_of_false
                · rintro ⟨p, hp⟩
                  have h := hp []
                  rw [parse0_bulkArg hlen, receiveBody, readBody, take_crlf, parse0_nil] at h
                  simp only [hn, Option.map_some, if_neg hneg] at h
                  have hshort := parse0_nil_length (readingBulk [] n.toNat)
                  have hlength := congrArg List.length h
                  simp only [finish, ReadState.finished, readingBulk] at hlength hshort
                  simp at hlength
                  omega
                · rintro (⟨-, hkept⟩ | ⟨-, s', hs, hnone⟩)
                  · obtain ⟨n', hn', hneg'⟩ := hkept s rfl
                    rw [hn] at hn'
                    exact hneg (Option.some.inj hn' ▸ hneg')
                  · rw [← (List.cons.inj hs).2, hn] at hnone
                    cases hnone
        · refine iff_of_true ⟨.reply (.bulk (some arg)), fun rest => ?_⟩
            (.inl ⟨hlen, fun s hs => absurd (by simp [hs, Dollar]) hdollar⟩)
          have hb : readBody (arg ++ crlf) (readingBulk [] 0) = some (readingBulk [arg] 0) := by
            rw [readBody, take_crlf]
            split
            · exact absurd rfl hdollar
            · rfl
          rw [parse0_bulkArg hlen, receiveBody, hb]
          rfl
      · exact iff_of_false (not_stands_bulk hlen) (fun h => hlen (h.elim (·.1) (·.1)))

theorem parse0_countLine_zero (rest : Bytes) :
    parse0 .zero ((countLine 0).toBytes ++ rest) = .reply .emptyMultiBulk :: parse0 .zero rest := by
  rw [countLine, Item.toBytes, parse0_line (readLine_normal (by decide) rest rfl)]
  rfl

theorem parse0_countLine_error {n : Nat} (hge : 2 ^ 32 ≤ n) (rest : Bytes) :
    parse0 .zero ((countLine n).toBytes ++ rest) =
      .error (.protocol (bytes "*" ++ formatNat n ++ crlf)) :: parse0 .zero rest := by
  have hline : (10 : UInt8) ∉ bytes "*" ++ formatNat n := by
    simp [bytes, newline_not_mem_formatNat]
  have hp : parseMultiBulkHeader (42 :: (formatNat n ++ crlf)) .zero = none := by
    have ha := headerArg_formatNat 42 n
    rw [List.cons_append] at ha
    rw [parseMultiBulkHeader, ha, parseUint_formatNat, if_neg (Nat.not_lt.mpr hge), Option.map_none]
  rw [countLine, Item.toBytes, parse0_line (readLine_normal hline rest rfl)]
  change (receiveHeader (42 :: (formatNat n ++ crlf)) .zero).1 ++
    parse0 (receiveHeader (42 :: (formatNat n ++ crlf)) .zero).2 rest = _
  simp only [receiveHeader, hp]
  rfl

/-- A count with as many items that are kept stands by itself. -/
theorem stands_of_multi {n : Nat} {l : List Item} (hlines : Lines l) (hn : n < 2 ^ 32)
    (hbody : Body l) (hlength : l.length = n) : Stands .zero (itemBytes (countLine n :: l)) := by
  cases l with
  | nil =>
      subst hlength
      refine ⟨.reply .emptyMultiBulk, fun rest => ?_⟩
      rw [itemBytes_cons, itemBytes_nil, List.append_nil]
      exact parse0_countLine_zero rest
  | cons item l =>
      have hstands : Stands (reading n [] 0) (itemBytes (item :: l)) :=
        stands_of_body (by simp) hlines hbody (by simpa using hlength)
      obtain ⟨p, hp⟩ := hstands
      refine ⟨p, fun rest => ?_⟩
      rw [itemBytes_cons, List.append_assoc, countLine, Item.toBytes,
        parse0_count (by rw [← hlength]; simp) hn, hp]

theorem multi_of_stands {n : Nat} {l : List Item} (hlines : Lines l)
    (hplain : ∀ item ∈ l, ¬ item.Misread) (hcount : n ≤ l.length)
    (h : Stands .zero (itemBytes (countLine n :: l))) : n < 2 ^ 32 ∧ Body l ∧ l.length = n := by
  rw [itemBytes_cons] at h
  by_cases hn : n < 2 ^ 32
  · by_cases hzero : n = 0
    · subst hzero
      have hleft : 10 ∉ itemBytes l := h.nothing_left fun rest => by
        rw [List.append_assoc, parse0_countLine_zero]
      obtain rfl := eq_nil_of_not_noticed hleft
      exact ⟨hn, trivial, rfl⟩
    · have hbody : Stands (reading n [] 0) (itemBytes l) := by
        obtain ⟨p, hp⟩ := h
        refine ⟨p, fun rest => ?_⟩
        rw [← hp, List.append_assoc, countLine, Item.toBytes, parse0_count (by omega) hn]
      obtain ⟨hb, hlength⟩ := body_of_stands hlines hplain (Nat.pos_of_ne_zero hzero)
        (by simpa using hcount) hbody
      exact ⟨hn, hb, by simpa using hlength⟩
  · have hleft : 10 ∉ itemBytes l := h.nothing_left fun rest => by
      rw [List.append_assoc, parse0_countLine_error (Nat.not_lt.mp hn)]
    obtain rfl := eq_nil_of_not_noticed hleft
    rw [List.length_nil] at hcount
    omega

mutual

theorem lines_items (reply : Reply) : Lines (items reply) := by
  intro text ht
  cases reply with
  | bulk => simp [items] at ht
  | multiBulk args =>
      simp only [items, List.mem_cons, countLine, Item.line.injEq, List.mem_map] at ht
      rcases ht with rfl | ⟨_, _, he⟩
      · simp [bytes]
      · cases he
  | multiRaw replies =>
      simp only [items, List.mem_cons, countLine, Item.line.injEq] at ht
      rcases ht with rfl | ht
      · simp [bytes]
      · exact lines_itemsAll replies text ht
  | noReply => simp [items] at ht
  | nullBulk => simp [items] at ht
  | _ =>
      simp only [items, List.mem_singleton, Item.line.injEq] at ht
      subst ht
      simp [bytes]

theorem lines_itemsAll (replies : List Reply) : Lines (itemsAll replies) := by
  intro text ht
  cases replies with
  | nil => simp [itemsAll] at ht
  | cons reply replies =>
      rw [itemsAll, List.mem_append] at ht
      rcases ht with ht | ht
      · exact lines_items reply text ht
      · exact lines_itemsAll replies text ht

end

/-- The replies that come through as one payload: no line end in a text, no bulk that
is taken for the header of another one, and as many items as are counted. -/
def Framable : Reply → Prop
  | .bulk arg => (Item.bulk arg).Kept ∨ (Item.bulk arg).Rejected
  | .status text | .standardErr text | .argNumErr text => 10 ∉ text
  | .noReply => False
  | .multiBulk args => args.length < 2 ^ 32 ∧ Body (args.map .bulk)
  | .multiRaw replies => replies.length < 2 ^ 32 ∧
      (∀ reply ∈ replies, (items reply).length = 1) ∧ Body (itemsAll replies)
  | _ => True

def NothingMisread : Reply → Prop
  | .multiBulk args => ∀ arg ∈ args, ¬ (Item.bulk arg).Misread
  | .multiRaw replies =>
      (∀ reply ∈ replies, items reply ≠ []) ∧ ∀ item ∈ itemsAll replies, ¬ item.Misread
  | _ => True

theorem newline_not_mem_formatInt (code : Int) : (10 : UInt8) ∉ formatInt code := by
  rw [formatInt]
  split
  · simp [newline_not_mem_formatNat]
  · exact newline_not_mem_formatNat _

theorem length_itemsAll_of_single {replies : List Reply}
    (h : ∀ reply ∈ replies, (items reply).length = 1) :
    (itemsAll replies).length = replies.length := by
  induction replies with
  | nil => rfl
  | cons reply replies ih =>
      rw [itemsAll, List.length_append, h reply List.mem_cons_self,
        ih fun r hr => h r (List.mem_cons_of_mem _ hr), List.length_cons, Nat.add_comm]

/-- As many items as replies are one item for each. -/
theorem single_of_length_itemsAll {replies : List Reply} (hne : ∀ reply ∈ replies, items reply ≠ []) :
    replies.length ≤ (itemsAll replies).length ∧
      ((itemsAll replies).length = replies.length →
        ∀ reply ∈ replies, (items reply).length = 1) := by
  induction replies with
  | nil => simp [itemsAll]
  | cons reply replies ih =>
      obtain ⟨hle, hsingle⟩ := ih fun r hr => hne r (List.mem_cons_of_mem _ hr)
      have hpos := List.length_pos_iff.mpr (hne reply List.mem_cons_self)
      rw [itemsAll, List.length_append, List.length_cons]
      refine ⟨by omega, fun hlength => ?_⟩
      refine List.forall_mem_cons.mpr ⟨by omega, hsingle (by omega)⟩

theorem stands_single (b : UInt8) (text : Bytes) (hmulti : b ≠ 42) (hbulk : b ≠ 36)
    {reply : Reply} (hitems : items reply = [.line (b :: text)]) :
    Stands .zero reply.toBytes ↔ 10 ∉ b :: text := by
  rw [toBytes_eq, hitems, itemBytes_cons, itemBytes_nil, List.append_nil, Item.toBytes]
  exact stands_line hmulti hbulk

def argNumText (cmd : Bytes) : Bytes :=
  bytes "ERR wrong number of arguments for '" ++ cmd ++ bytes "' command"

theorem mem_argNumText (cmd : Bytes) : (10 : UInt8) ∈ 45 :: argNumText cmd ↔ 10 ∈ cmd := by
  have hfirst : (10 : UInt8) ∉ bytes "ERR wrong number of arguments for '" := by decide
  have hlast : (10 : UInt8) ∉ bytes "' command" := by decide
  simp [argNumText, hfirst, hlast]

theorem stands_of_framable {reply : Reply} (h : Framable reply) : Stands .zero reply.toBytes := by
  cases reply with
  | bulk arg => exact (stands_bulk arg).mpr h
  | nullBulk => exact (stands_bulk none).mpr (.inl trivial)
  | emptyMultiBulk =>
      exact ⟨.reply .emptyMultiBulk, fun rest => parse0_countLine_zero rest⟩
  | multiBulk args =>
      rw [toBytes_eq]
      exact stands_of_multi (fun text ht => by simp at ht) h.1 h.2 (by simp)
  | multiRaw replies =>
      rw [toBytes_eq]
      exact stands_of_multi (lines_itemsAll replies) h.1 h.2.2 (length_itemsAll_of_single h.2.1)
  | noReply => exact h.elim
  | status text => exact (stands_single 43 text (by decide) (by decide) rfl).mpr (by simpa [Framable] using h)
  | int code =>
      exact (stands_single 58 _ (by decide) (by decide) rfl).mpr
        (by simp [newline_not_mem_formatInt])
  | standardErr text =>
      exact (stands_single 45 text (by decide) (by decide) rfl).mpr (by simpa [Framable] using h)
  | argNumErr cmd =>
      apply (stands_single 45 (argNumText cmd) (by decide) (by decide) rfl).mpr
      rw [mem_argNumText]
      exact h
  | pong => exact (stands_single 43 _ (by decide) (by decide) rfl).mpr (by decide)
  | ok => exact (stands_single 43 _ (by decide) (by decide) rfl).mpr (by decide)
  | queued => exact (stands_single 43 _ (by decide) (by decide) rfl).mpr (by decide)
  | unknownErr => exact (stands_single 45 _ (by decide) (by decide) rfl).mpr (by decide)
  | syntaxErr => exact (stands_single 45 _ (by decide) (by decide) rfl).mpr (by decide)
  | wrongTypeErr => exact (stands_single 45 _ (by decide) (by decide) rfl).mpr (by decide)

theorem framable_of_stands {reply : Reply} (hread : NothingMisread reply)
    (h : Stands .zero reply.toBytes) : Framable reply := by
  cases reply with
  | bulk arg => exact (stands_bulk arg).mp h
  | status text =>
      have hline := (stands_single 43 text (by decide) (by decide) rfl).mp h
      exact fun hmem => hline (List.mem_cons_of_mem _ hmem)
  | standardErr text =>
      have hline := (stands_single 45 text (by decide) (by decide) rfl).mp h
      exact fun hmem => hline (List.mem_cons_of_mem _ hmem)
  | argNumErr cmd =>
      have hline := (stands_single 45 (argNumText cmd) (by decide) (by decide) rfl).mp h
      rwa [mem_argNumText] at hline
  | noReply =>
      obtain ⟨p, hp⟩ := h
      have hlength := congrArg List.length (hp [])
      simp [Reply.toBytes, parse0_nil] at hlength
  | multiBulk args =>
      rw [toBytes_eq] at h
      obtain ⟨hn, hbody, -⟩ := multi_of_stands (fun text ht => by simp at ht)
        (by simpa [NothingMisread] using hread) (by simp) h
      exact ⟨hn, hbody⟩
  | multiRaw replies =>
      rw [toBytes_eq] at h
      obtain ⟨hle, hsingle⟩ := single_of_length_itemsAll hread.1
      obtain ⟨hn, hbody, hlength⟩ := multi_of_stands (lines_itemsAll replies) hread.2 hle h
      exact ⟨hn, hsingle hlength, hbody⟩
  | nullBulk | emptyMultiBulk | int | pong | ok | queued | unknownErr | syntaxErr
    | wrongTypeErr => exact trivial

/-- After any number of the replies, the parser has sent one payload for each of them,
and it reads what follows like the start of a reply. -/
def Framed (replies : List Reply) : Prop :=
  ∃ payloads : List Payload, payloads.length = replies.length ∧
    ∀ k ≤ replies.length, ∀ rest,
      parseStream ((replies.take k).flatMap Reply.toBytes ++ rest) =
        payloads.take k ++ parseStream rest

theorem framed_of_stands {replies : List Reply}
    (h : ∀ reply ∈ replies, Stands .zero reply.toBytes) : Framed replies := by
  induction replies with
  | nil =>
      refine ⟨[], rfl, fun k hk rest => ?_⟩
      simp
  | cons reply replies ih =>
      obtain ⟨p, hp⟩ := h reply List.mem_cons_self
      obtain ⟨payloads, hlength, hall⟩ := ih fun r hr => h r (List.mem_cons_of_mem _ hr)
      refine ⟨p :: payloads, by simp [hlength], fun k hk rest => ?_⟩
      cases k with
      | zero => simp
      | succ k =>
          have hrest := hall k (by simpa using hk) rest
          rw [List.take_succ_cons, List.flatMap_cons, List.append_assoc, parseStream, hp,
            List.take_succ_cons, List.cons_append, ← hrest]
          rfl

theorem stands_of_framed {replies : List Reply} (h : Framed replies) :
    ∀ reply ∈ replies, Stands .zero reply.toBytes := by
  obtain ⟨payloads, hlength, hall⟩ := h
  intro reply hmem
  obtain ⟨before, after, rfl⟩ := List.append_of_mem hmem
  have hlt : before.length < payloads.length := by simp [hlength]
  refine ⟨payloads.get ⟨before.length, hlt⟩, fun rest => ?_⟩
  have hbefore := hall before.length (by simp) (reply.toBytes ++ rest)
  have hnext := hall (before.length + 1) (by simp) rest
  have htake : (before ++ reply :: after).take (before.length + 1) = before ++ [reply] := by
    rw [List.take_append, List.take_of_length_le (by omega)]
    simp
  rw [List.take_left] at hbefore
  rw [htake, List.flatMap_append, List.flatMap_singleton, List.append_assoc, hbefore,
    List.take_succ_eq_append_getElem hlt, List.append_assoc] at hnext
  exact List.append_cancel_left hnext

/-- The replies are framed when each of them is framable, and only then if no part of
a multi bulk is misread. -/
theorem framed_iff_framable (replies : List Reply) :
    ((∀ reply ∈ replies, Framable reply) → Framed replies) ∧
      ((∀ reply ∈ replies, NothingMisread reply) →
        (Framed replies ↔ ∀ reply ∈ replies, Framable reply)) := by
  have hmp (h : ∀ reply ∈ replies, Framable reply) : Framed replies :=
    framed_of_stands fun reply hmem => stands_of_framable (h reply hmem)
  refine ⟨hmp, fun hread => ⟨fun hframed reply hmem => ?_, hmp⟩⟩
  exact framable_of_stands (hread reply hmem) (stands_of_framed hframed reply hmem)

/-- The result of a transaction with one `LRANGE` comes through as three payloads. -/
theorem not_framed_lrange :
    ¬ Framed [.multiRaw [.multiBulk [some (bytes "a"), some (bytes "b")]]] := by
  intro h
  have hread : NothingMisread (.multiRaw [.multiBulk [some (bytes "a"), some (bytes "b")]]) := by
    refine ⟨by simp [items], fun item hitem => ?_⟩
    simp only [itemsAll, items, List.append_nil, List.mem_cons, List.map_cons, List.map_nil,
      List.not_mem_nil, or_false] at hitem
    rcases hitem with rfl | rfl | rfl
    · exact (by decide : (10 : UInt8) ∉ bytes "*" ++ formatNat 2)
    · rintro ⟨s, n, hs, -⟩
      simp [bytes] at hs
    · rintro ⟨s, n, hs, -⟩
      simp [bytes] at hs
  have hframable := framable_of_stands hread (stands_of_framed h _ List.mem_cons_self)
  exact absurd (hframable.2.1 _ List.mem_cons_self) (by decide)

end Traitor.Framing
