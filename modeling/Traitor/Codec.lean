import Traitor.Parser

namespace Traitor.Codec

open Lib.Strconv Protocol Traitor.Parser

def encode (line : List Bytes) : Bytes := (Reply.multiBulk (line.map some)).toBytes

def decoded (line : List Bytes) : Payload := .reply (.multiBulk (line.map some))

/-- The parser sends every command line as it was, and then the end of the input. -/
def RoundTrips (cmds : List (List Bytes)) : Prop :=
  parseStream (cmds.flatMap encode) = cmds.map decoded ++ [.error .eof]

def Dollar (arg : Bytes) : Prop := arg.head? = some 36

instance (arg : Bytes) : Decidable (Dollar arg) := inferInstanceAs (Decidable (_ = _))

/-- The count of arguments fits the header, and each argument is neither taken for
a header itself nor too long for a length with its line end. -/
def Safe (line : List Bytes) : Prop :=
  line.length < 2 ^ 32 ∧ ∀ arg ∈ line, ¬ Dollar arg ∧ arg.length + 2 < 2 ^ 63

instance (line : List Bytes) : Decidable (Safe line) := inferInstanceAs (Decidable (_ ∧ _))

def encodeArgs (args : List Bytes) : Bytes := (args.map some).flatMap bulkBytes

theorem encode_eq (line : List Bytes) :
    encode line = bytes "*" ++ formatNat line.length ++ crlf ++ encodeArgs line := by
  simp [encode, Reply.toBytes, multiBulkBytes, encodeArgs]

theorem encodeArgs_cons (arg : Bytes) (args : List Bytes) :
    encodeArgs (arg :: args) =
      bytes "$" ++ formatNat arg.length ++ crlf ++ arg ++ crlf ++ encodeArgs args := by
  simp [encodeArgs, bulkBytes]

theorem readBytes_append {line : Bytes} (h : 10 ∉ line) (rest : Bytes) :
    readBytes 10 (line ++ crlf ++ rest) = some (line ++ crlf, rest) := by
  induction line with
  | nil => simp [readBytes, crlf]
  | cons b line ih =>
      have hb : b ≠ 10 := fun he => h (by simp [he])
      have hl : 10 ∉ line := fun hm => h (List.mem_cons_of_mem _ hm)
      have hrest := ih hl
      simp only [List.append_assoc] at hrest
      simp [readBytes, hb, hrest]

theorem readLine_normal {line : Bytes} (h : 10 ∉ line) (rest : Bytes) {state : ReadState}
    (hs : state.bulkLen = 0) :
    readLine (line ++ crlf ++ rest) state = .line (line ++ crlf) rest state := by
  simp only [readLine, if_pos hs, readBytes_append h]
  simp [crlf]

theorem readLine_bulk {arg : Bytes} (h : arg ≠ []) (hlen : arg.length + 2 < 2 ^ 63) (rest : Bytes)
    {state : ReadState} (hs : state.bulkLen = arg.length) (hr : state.readingRepl = false) :
    readLine (arg ++ crlf ++ rest) state =
      .line (arg ++ crlf) rest { state with bulkLen := 0 } := by
  have hpos : 0 < arg.length := List.length_pos_iff.mpr h
  have hbody : bodyLen state = (arg ++ crlf).length := by simp [bodyLen, hr, hs, crlf]
  rw [readLine, if_neg (by omega), if_neg (by omega), if_neg (by simp [crlf]), hbody,
    if_neg (by simp), List.take_left, List.drop_left]

theorem newline_not_mem_formatNat (n : Nat) : (10 : UInt8) ∉ formatNat n := by
  intro h
  exact absurd (isDigit_of_mem h) (by decide)

theorem headerArg_formatNat (b : UInt8) (n : Nat) :
    headerArg (b :: formatNat n ++ crlf) = formatNat n := by
  simp [headerArg, crlf]

theorem parse0_panic {input : Bytes} {state : ReadState} (h : readLine input state = .panic) :
    parse0 state input = [] := by
  rw [parse0]
  split <;> simp_all

theorem parse0_line {input msg rest : Bytes} {state state' : ReadState}
    (h : readLine input state = .line msg rest state') :
    parse0 state input = (parseLine msg state').1 ++ parse0 (parseLine msg state').2 rest := by
  rw [parse0]
  split <;> simp_all

theorem parseLine_multi {state : ReadState} (h : state.readingMultiLine = true) (msg : Bytes) :
    parseLine msg state = receiveBody msg state := by
  rw [parseLine, if_pos h]

def reading (count : Nat) (args : List Bytes) (bulkLen : Nat) : ReadState :=
  ⟨true, count, 42, args, bulkLen, false⟩

theorem parse0_count {n : Nat} (hn : 0 < n) (hlt : n < 2 ^ 32) (rest : Bytes) :
    parse0 .zero (bytes "*" ++ formatNat n ++ crlf ++ rest) = parse0 (reading n [] 0) rest := by
  have hline : (10 : UInt8) ∉ bytes "*" ++ formatNat n := by
    simp [bytes, newline_not_mem_formatNat]
  rw [parse0_line (readLine_normal hline rest rfl)]
  have hp : parseMultiBulkHeader (42 :: (formatNat n ++ crlf)) .zero = some (reading n [] 0) := by
    have ha := headerArg_formatNat 42 n
    rw [List.cons_append] at ha
    rw [parseMultiBulkHeader, ha, parseUint_formatNat, if_pos hlt, Option.map_some,
      if_neg (Nat.ne_of_gt hn)]
    rfl
  have hl : parseLine (bytes "*" ++ formatNat n ++ crlf) .zero = ([], reading n [] 0) := by
    change receiveHeader (42 :: (formatNat n ++ crlf)) .zero = _
    simp only [receiveHeader, hp]
    exact if_neg (Nat.ne_of_gt hn)
  rw [hl, List.nil_append]

theorem parse0_count_error {n : Nat} (hge : 2 ^ 32 ≤ n) (rest : Bytes) :
    ∃ payloads, parse0 .zero (bytes "*" ++ formatNat n ++ crlf ++ rest) =
      .error (.protocol (bytes "*" ++ formatNat n ++ crlf)) :: payloads := by
  have hline : (10 : UInt8) ∉ bytes "*" ++ formatNat n := by
    simp [bytes, newline_not_mem_formatNat]
  have hp : parseMultiBulkHeader (42 :: (formatNat n ++ crlf)) .zero = none := by
    have ha := headerArg_formatNat 42 n
    rw [List.cons_append] at ha
    rw [parseMultiBulkHeader, ha, parseUint_formatNat, if_neg (Nat.not_lt.mpr hge), Option.map_none]
  have hl : parseLine (bytes "*" ++ formatNat n ++ crlf) .zero =
      ([.error (.protocol (bytes "*" ++ formatNat n ++ crlf))], .zero) := by
    change receiveHeader (42 :: (formatNat n ++ crlf)) .zero = _
    simp only [receiveHeader, hp]
    rfl
  rw [parse0_line (readLine_normal hline rest rfl), hl]
  exact ⟨_, rfl⟩

theorem parse0_length {count : Nat} {args : List Bytes} (hcount : args.length < count) {n : Nat}
    (hn : n < 2 ^ 63) (rest : Bytes) :
    parse0 (reading count args 0) (bytes "$" ++ formatNat n ++ crlf ++ rest) =
      parse0 (reading count args n) rest := by
  have hline : (10 : UInt8) ∉ bytes "$" ++ formatNat n := by
    simp [bytes, newline_not_mem_formatNat]
  have hb : readBody (bytes "$" ++ formatNat n ++ crlf) (reading count args 0) =
      some (reading count args n) := by
    have ht : (bytes "$" ++ formatNat n ++ crlf).take
        ((bytes "$" ++ formatNat n ++ crlf).length - 2) = 36 :: formatNat n := by
      simp [crlf, bytes]
    rw [readBody, ht]
    simp only [parseInt_formatNat, if_pos hn, Option.map_some, Int.toNat_natCast]
    rw [if_neg (by omega)]
    rfl
  have hl : parseLine (bytes "$" ++ formatNat n ++ crlf) (reading count args 0) =
      ([], reading count args n) := by
    have hf : (reading count args n).finished = false := by
      simp [ReadState.finished, reading, Nat.ne_of_lt hcount]
    rw [parseLine_multi rfl, receiveBody, hb]
    simp [finish, hf]
  rw [parse0_line (readLine_normal hline rest rfl), hl, List.nil_append]

theorem parse0_length_error {count : Nat} {args : List Bytes} {n : Nat} (hn : 2 ^ 63 ≤ n)
    (rest : Bytes) :
    ∃ msg payloads, parse0 (reading count args 0) (bytes "$" ++ formatNat n ++ crlf ++ rest) =
      .error (.protocol msg) :: payloads := by
  have hline : (10 : UInt8) ∉ bytes "$" ++ formatNat n := by
    simp [bytes, newline_not_mem_formatNat]
  have hb : readBody (bytes "$" ++ formatNat n ++ crlf) (reading count args 0) = none := by
    have ht : (bytes "$" ++ formatNat n ++ crlf).take
        ((bytes "$" ++ formatNat n ++ crlf).length - 2) = 36 :: formatNat n := by
      simp [crlf, bytes]
    rw [readBody, ht]
    simp only [parseInt_formatNat, if_neg (Nat.not_lt.mpr hn), Option.map_none]
  rw [parse0_line (readLine_normal hline rest rfl), parseLine_multi rfl, receiveBody, hb]
  exact ⟨_, _, rfl⟩

theorem parseLine_took {count : Nat} {args : List Bytes} {arg msg : Bytes}
    (hb : readBody msg (reading count args 0) = some (reading count (args ++ [arg]) 0)) (rest : Bytes) :
    (parseLine msg (reading count args 0)).1 ++ parse0 (parseLine msg (reading count args 0)).2 rest =
      if args.length + 1 = count then decoded (args ++ [arg]) :: parse0 .zero rest
      else parse0 (reading count (args ++ [arg]) 0) rest := by
  rw [parseLine_multi rfl, receiveBody, hb]
  by_cases hlast : args.length + 1 = count
  · have hf : (reading count (args ++ [arg]) 0).finished = true := by
      simp [ReadState.finished, reading, ← hlast]
    simp only [finish, hf, if_true, hlast]
    simp [reading, decoded]
  · have hf : (reading count (args ++ [arg]) 0).finished = false := by
      simp [ReadState.finished, reading, hlast]
    simp [finish, hf, hlast]

theorem parse0_body {count : Nat} {args : List Bytes} {arg : Bytes} (harg : ¬ Dollar arg)
    (hlen : arg.length + 2 < 2 ^ 63) (rest : Bytes) :
    parse0 (reading count args arg.length) (arg ++ crlf ++ rest) =
      if args.length + 1 = count then decoded (args ++ [arg]) :: parse0 .zero rest
      else parse0 (reading count (args ++ [arg]) 0) rest := by
  have hr : readLine (arg ++ crlf ++ rest) (reading count args arg.length) =
      .line (arg ++ crlf) rest (reading count args 0) := by
    by_cases hnil : arg = []
    · subst hnil
      exact readLine_normal (by simp) rest rfl
    · exact readLine_bulk hnil hlen rest rfl rfl
  have hb : readBody (arg ++ crlf) (reading count args 0) =
      some (reading count (args ++ [arg]) 0) := by
    have ht : (arg ++ crlf).take ((arg ++ crlf).length - 2) = arg := by simp [crlf]
    rw [readBody, ht]
    split
    · exact absurd rfl harg
    · rfl
  rw [parse0_line hr, parseLine_took hb]

theorem parse0_arg {count : Nat} {args : List Bytes} {arg : Bytes} (harg : ¬ Dollar arg)
    (hlen : arg.length + 2 < 2 ^ 63) (hcount : args.length < count) (rest : Bytes) :
    parse0 (reading count args 0) (encodeArgs [arg] ++ rest) =
      if args.length + 1 = count then decoded (args ++ [arg]) :: parse0 .zero rest
      else parse0 (reading count (args ++ [arg]) 0) rest := by
  have he : encodeArgs [arg] ++ rest =
      bytes "$" ++ formatNat arg.length ++ crlf ++ (arg ++ crlf ++ rest) := by
    simp [encodeArgs, bulkBytes]
  rw [he, parse0_length hcount (by omega), parse0_body harg hlen]

/-- A nil argument is read as an empty one. -/
theorem parse0_nilArg {count : Nat} {args : List Bytes} (rest : Bytes) :
    parse0 (reading count args 0) (bulkBytes none ++ rest) =
      if args.length + 1 = count then decoded (args ++ [[]]) :: parse0 .zero rest
      else parse0 (reading count (args ++ [[]]) 0) rest := by
  have hline : (10 : UInt8) ∉ bytes "$-1" := by decide
  have hb : readBody (bytes "$-1" ++ crlf) (reading count args 0) =
      some (reading count (args ++ [[]]) 0) := by
    have ht : (bytes "$-1" ++ crlf).take ((bytes "$-1" ++ crlf).length - 2) = [36, 45, 49] := by
      decide
    have hparse : parseInt 64 [45, 49] = some (-1) := by decide
    rw [readBody, ht]
    simp only [hparse, Option.map_some]
    rfl
  rw [bulkBytes, parse0_line (readLine_normal hline rest rfl), parseLine_took hb]

theorem parse0_slice {count : Nat} {args : List Bytes} {arg : Option Bytes}
    (harg : ¬ Dollar (arg.getD [])) (hlen : (arg.getD []).length + 2 < 2 ^ 63)
    (hcount : args.length < count) (rest : Bytes) :
    parse0 (reading count args 0) (bulkBytes arg ++ rest) =
      if args.length + 1 = count then decoded (args ++ [arg.getD []]) :: parse0 .zero rest
      else parse0 (reading count (args ++ [arg.getD []]) 0) rest := by
  cases arg with
  | none => exact parse0_nilArg rest
  | some arg =>
      have he : bulkBytes (some arg) = encodeArgs [arg] := by simp [encodeArgs]
      rw [he]
      exact parse0_arg harg hlen hcount rest

theorem encodeArgs_append (args args' : List Bytes) :
    encodeArgs (args ++ args') = encodeArgs args ++ encodeArgs args' := by
  simp [encodeArgs]

theorem parse0_slices {count : Nat} {args : List Bytes} {slices : List (Option Bytes)}
    (hne : slices ≠ []) (hcount : args.length + slices.length = count)
    (hsafe : ∀ arg ∈ slices, ¬ Dollar (arg.getD []) ∧ (arg.getD []).length + 2 < 2 ^ 63)
    (rest : Bytes) :
    parse0 (reading count args 0) (slices.flatMap bulkBytes ++ rest) =
      decoded (args ++ slices.map (·.getD [])) :: parse0 .zero rest := by
  induction slices generalizing args with
  | nil => exact absurd rfl hne
  | cons arg slices ih =>
      rw [List.length_cons] at hcount
      obtain ⟨harg, hlen⟩ := hsafe arg List.mem_cons_self
      rw [List.flatMap_cons, List.append_assoc, parse0_slice harg hlen (by omega)]
      cases slices with
      | nil =>
          rw [if_pos (by simpa using hcount)]
          simp
      | cons arg' slices =>
          rw [if_neg (by simp at hcount; omega),
            ih (by simp) (by simp at hcount ⊢; omega)
              (fun a ha => hsafe a (List.mem_cons_of_mem _ ha)), List.append_assoc,
            List.singleton_append]
          rfl

theorem parse0_args {count : Nat} {args args' : List Bytes} (hne : args' ≠ [])
    (hcount : args.length + args'.length = count)
    (hsafe : ∀ arg ∈ args', ¬ Dollar arg ∧ arg.length + 2 < 2 ^ 63) (rest : Bytes) :
    parse0 (reading count args 0) (encodeArgs args' ++ rest) =
      decoded (args ++ args') :: parse0 .zero rest := by
  have hmap : (args'.map some).map (·.getD []) = args' := by simp [Function.comp_def]
  rw [encodeArgs, parse0_slices (by simpa using hne) (by simpa using hcount) (by simpa using hsafe),
    hmap]

theorem parse0_encode {line : List Bytes} (hne : line ≠ []) (hsafe : Safe line) (rest : Bytes) :
    parse0 .zero (encode line ++ rest) = decoded line :: parse0 .zero rest := by
  have hpos : 0 < line.length := List.length_pos_iff.mpr hne
  rw [encode_eq, List.append_assoc, parse0_count hpos hsafe.1,
    parse0_args hne (by simp) hsafe.2, List.nil_append]

/-- A line with nil arguments comes through with empty ones. -/
theorem parse0_multiBulk {line : List (Option Bytes)} (hne : line ≠ [])
    (hsafe : Safe (line.map (·.getD []))) (rest : Bytes) :
    parse0 .zero (multiBulkBytes line ++ rest) =
      decoded (line.map (·.getD [])) :: parse0 .zero rest := by
  have hpos : 0 < line.length := List.length_pos_iff.mpr hne
  have hcount : line.length < 2 ^ 32 := by simpa using hsafe.1
  rw [multiBulkBytes, List.append_assoc, parse0_count hpos hcount,
    parse0_slices hne (by simp) (by simpa using hsafe.2), List.nil_append]

theorem parse0_nil : parse0 .zero [] = [.error .eof] := by
  rw [parse0]
  rfl

theorem parse0_flatMap {cmds : List (List Bytes)} (hne : ∀ line ∈ cmds, line ≠ [])
    (hsafe : ∀ line ∈ cmds, Safe line) (rest : Bytes) :
    parse0 .zero (cmds.flatMap encode ++ rest) = cmds.map decoded ++ parse0 .zero rest := by
  induction cmds with
  | nil => rfl
  | cons line cmds ih =>
      rw [List.flatMap_cons, List.append_assoc,
        parse0_encode (hne line List.mem_cons_self) (hsafe line List.mem_cons_self),
        ih (fun l hl => hne l (List.mem_cons_of_mem _ hl))
          (fun l hl => hsafe l (List.mem_cons_of_mem _ hl)), List.map_cons, List.cons_append]

/-- Not a command line with an argument that starts with a dollar sign. -/
def Clean (p : Payload) : Prop :=
  ∀ args : List Bytes, p.data = some (.multiBulk (args.map some)) → ∀ arg ∈ args, ¬ Dollar arg

theorem error_clean (err : Error) : Clean (.error err) := by
  intro args h
  simp [Payload.error] at h

theorem readLine_state {input msg rest : Bytes} {state state' : ReadState}
    (h : readLine input state = .line msg rest state') :
    state'.readingMultiLine = state.readingMultiLine ∧ state'.args = state.args := by
  rw [readLine] at h
  by_cases hb : state.bulkLen = 0
  · rw [if_pos hb] at h
    cases hr : readBytes 10 input with
    | none => simp [hr] at h
    | some read =>
        simp only [hr] at h
        split_ifs at h
        simp only [Read.line.injEq] at h
        simp [h.2.2]
  · rw [if_neg hb] at h
    split_ifs at h
    simp only [Read.line.injEq] at h
    simp [← h.2.2]

theorem readBody_clean {msg : Bytes} {state state' : ReadState} (h : readBody msg state = some state')
    (hargs : ∀ arg ∈ state.args, ¬ Dollar arg) :
    state'.readingMultiLine = state.readingMultiLine ∧ ∀ arg ∈ state'.args, ¬ Dollar arg := by
  have happend {arg : Bytes} (harg : ¬ Dollar arg) : ∀ a ∈ state.args ++ [arg], ¬ Dollar a := by
    intro a ha
    rcases List.mem_append.mp ha with ha | ha
    · exact hargs a ha
    · rw [List.mem_singleton.mp ha]
      exact harg
  rw [readBody] at h
  split at h
  · obtain ⟨bulkLen, _, rfl⟩ := Option.map_eq_some_iff.mp h
    split
    · exact ⟨rfl, happend (by decide)⟩
    · exact ⟨rfl, hargs⟩
  · rename_i hline
    simp only [Option.some.injEq] at h
    subst h
    refine ⟨rfl, happend ?_⟩
    intro hd
    obtain ⟨s, hs⟩ := List.head?_eq_some_iff.mp hd
    exact hline s hs

/-- An argument that starts with a dollar sign is not in the next command line sent. -/
theorem parse0_head_clean {state : ReadState} (hmulti : state.readingMultiLine = true)
    (hargs : ∀ arg ∈ state.args, ¬ Dollar arg) (input : Bytes) {p : Payload}
    (hp : (parse0 state input).head? = some p) : Clean p := by
  induction hn : input.length using Nat.strongRecOn generalizing state input with
  | _ n ih =>
      rw [parse0] at hp
      split at hp
      · simp at hp
      · simp only [List.head?_cons, Option.some.injEq] at hp
        exact hp ▸ error_clean _
      · simp only [List.head?_cons, Option.some.injEq] at hp
        exact hp ▸ error_clean _
      · rename_i msg rest state' hr
        have hlt := readLine_line_length hr
        obtain ⟨hmulti', hargs'⟩ := readLine_state hr
        rw [hmulti] at hmulti'
        rw [← hargs'] at hargs
        rw [parseLine_multi hmulti', receiveBody] at hp
        cases hb : readBody msg state' with
        | none =>
            simp only [hb, List.singleton_append, List.head?_cons, Option.some.injEq] at hp
            exact hp ▸ error_clean _
        | some state'' =>
            obtain ⟨hm, ha⟩ := readBody_clean hb hargs
            simp only [hb, finish] at hp
            cases hf : state''.finished with
            | true =>
                rw [if_pos hf] at hp
                intro args he
                split_ifs at hp <;> simp only [List.singleton_append, List.head?_cons,
                  Option.some.injEq] at hp <;> rw [← hp] at he <;> simp [Payload.reply] at he
                rwa [← List.map_injective_iff.mpr (fun _ _ => Option.some.inj) he]
            | false =>
                rw [if_neg (by simp [hf])] at hp
                exact ih rest.length (by omega) (hm.trans hmulti') ha rest hp rfl

theorem parse0_args_tainted {count : Nat} {args args' : List Bytes}
    (hcount : args.length + args'.length = count) (hargs : ∀ arg ∈ args, ¬ Dollar arg)
    (hbad : ¬ ∀ arg ∈ args', ¬ Dollar arg ∧ arg.length + 2 < 2 ^ 63) (rest : Bytes) :
    (parse0 (reading count args 0) (encodeArgs args' ++ rest)).head? ≠
      some (decoded (args ++ args')) := by
  induction args' generalizing args with
  | nil => simp at hbad
  | cons arg args' ih =>
      rw [List.length_cons] at hcount
      by_cases harg : Dollar arg
      · intro hp
        have hclean := parse0_head_clean (rfl : (reading count args 0).readingMultiLine = true) hargs _ hp
        exact hclean (args ++ arg :: args') rfl arg (by simp) harg
      · by_cases hlen : arg.length + 2 < 2 ^ 63
        · have hsplit : encodeArgs (arg :: args') ++ rest =
              encodeArgs [arg] ++ (encodeArgs args' ++ rest) := by
            rw [← List.singleton_append, encodeArgs_append, List.append_assoc]
          have hrest : ¬ ∀ a ∈ args', ¬ Dollar a ∧ a.length + 2 < 2 ^ 63 := by
            intro hall
            exact hbad (List.forall_mem_cons.mpr ⟨⟨harg, hlen⟩, hall⟩)
          have hpos : args'.length ≠ 0 := by
            intro h0
            simp [List.length_eq_zero_iff.mp h0] at hrest
          have hnext := @ih (args ++ [arg]) (by simp; omega)
            (by simpa [or_imp, forall_and, harg] using hargs) hrest
          rw [List.append_assoc, List.singleton_append] at hnext
          rw [hsplit, parse0_arg harg hlen (by omega), if_neg (by omega)]
          exact hnext
        · have hsplit : encodeArgs (arg :: args') ++ rest = bytes "$" ++ formatNat arg.length ++
              crlf ++ (arg ++ crlf ++ encodeArgs args' ++ rest) := by
            simp [encodeArgs_cons]
          rw [hsplit]
          by_cases hrange : arg.length < 2 ^ 63
          · have hpanic : ∀ input,
                readLine input (reading count args arg.length) = .panic := by
              intro input
              rw [readLine, if_neg (by simp only [reading]; omega),
                if_pos (by simp only [reading]; omega)]
            rw [parse0_length (by omega) hrange, parse0_panic (hpanic _)]
            simp
          · obtain ⟨msg, payloads, he⟩ := @parse0_length_error count args _
              (Nat.not_lt.mp hrange) (arg ++ crlf ++ encodeArgs args' ++ rest)
            rw [he]
            simp [Payload.error, decoded, Payload.reply]

theorem parse0_encode_tainted {line : List Bytes} (hne : line ≠ []) (hbad : ¬ Safe line)
    (rest : Bytes) : (parse0 .zero (encode line ++ rest)).head? ≠ some (decoded line) := by
  have hpos : 0 < line.length := List.length_pos_iff.mpr hne
  rw [encode_eq, List.append_assoc]
  by_cases hcount : line.length < 2 ^ 32
  · rw [parse0_count hpos hcount]
    exact @parse0_args_tainted _ [] _ (by simp) (by simp) (fun h => hbad ⟨hcount, h⟩) rest
  · obtain ⟨payloads, he⟩ := parse0_count_error (Nat.not_lt.mp hcount) (encodeArgs line ++ rest)
    rw [he]
    simp [Payload.error, decoded, Payload.reply]

theorem exists_first_tainted {cmds : List (List Bytes)} (h : ∃ line ∈ cmds, ¬ Safe line) :
    ∃ before bad after, cmds = before ++ bad :: after ∧ ¬ Safe bad ∧
      ∀ line ∈ before, Safe line := by
  induction cmds with
  | nil => simp at h
  | cons line cmds ih =>
      by_cases hs : Safe line
      · have hrest : ∃ l ∈ cmds, ¬ Safe l := by
          obtain ⟨l, hl, hu⟩ := h
          rcases List.mem_cons.mp hl with rfl | hl
          · exact absurd hs hu
          · exact ⟨l, hl, hu⟩
        obtain ⟨before, bad, after, rfl, hbad, hbefore⟩ := ih hrest
        exact ⟨line :: before, bad, after, rfl, hbad, List.forall_mem_cons.mpr ⟨hs, hbefore⟩⟩
      · exact ⟨[], line, cmds, rfl, hs, by simp⟩

/-- Command lines come through the parser exactly when all of them are safe. -/
theorem roundTrips_iff_safe (cmds : List (List Bytes)) (h : ∀ line ∈ cmds, line ≠ []) :
    RoundTrips cmds ↔ ∀ line ∈ cmds, Safe line := by
  constructor
  · intro hr line hl
    by_contra hbad
    obtain ⟨before, bad, after, hcmds, hfirst, hsafe⟩ := exists_first_tainted ⟨line, hl, hbad⟩
    subst hcmds
    have hbefore := parse0_flatMap (fun l hl => h l (List.mem_append_left _ hl)) hsafe
      (encode bad ++ after.flatMap encode)
    have hhead := parse0_encode_tainted (h bad (by simp)) hfirst (after.flatMap encode)
    rw [RoundTrips, parseStream, List.flatMap_append, List.flatMap_cons, hbefore, List.map_append,
      List.append_assoc, List.append_cancel_left_eq] at hr
    exact hhead (by rw [hr]; rfl)
  · intro hsafe
    have hp := parse0_flatMap h hsafe []
    rwa [List.append_nil, parse0_nil] at hp

theorem roundTrips_iff_safe_set :
    RoundTrips [[bytes "SET", bytes "k", []], [bytes "PING"]] ↔
      ∀ line ∈ [[bytes "SET", bytes "k", []], [bytes "PING"]], Safe line :=
  roundTrips_iff_safe [[bytes "SET", bytes "k", []], [bytes "PING"]] (by decide)

/-- A price in dollars is taken for the length of the next argument. -/
theorem not_roundTrips_price : ¬ RoundTrips [[bytes "SET", bytes "k", bytes "$5"]] := by
  intro hr
  have hhead := @parse0_encode_tainted [bytes "SET", bytes "k", bytes "$5"] (by decide)
    (fun hs => (hs.2 (bytes "$5") (by simp)).1 rfl) []
  rw [RoundTrips, parseStream] at hr
  simp only [List.flatMap_cons, List.flatMap_nil] at hr
  exact hhead (by rw [hr]; rfl)

end Traitor.Codec
