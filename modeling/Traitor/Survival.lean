import Traitor.Framing

namespace Traitor.Parser

open Lib.Strconv Protocol Codec Framing

/-- The largest allocation that the runtime does not panic at. The arguments of every
header fit. -/
structure Runtime where
  maxAlloc : Nat
  arguments_fit : 24 * 2 ^ 32 ≤ maxAlloc

/-- The buffer for a bulk is allocated before it is read. -/
def readLineWithin (rt : Runtime) (input : Bytes) (state : ReadState) : Read :=
  if state.bulkLen ≠ 0 ∧ rt.maxAlloc < bodyLen state then .panic else readLine input state

/-- One round of the loop: the payloads that it sends, and how it goes on. -/
inductive Round
  | close (payloads : List Payload)
  | next (payloads : List Payload) (state : ReadState) (rest : Bytes)

def round (rt : Runtime) (state : ReadState) (input : Bytes) : Round :=
  match readLineWithin rt input state with
  | .panic => .close []
  | .ioErr err => .close [.error err]
  | .protocolErr msg rest => .next [.error (.protocol msg)] .zero rest
  | .line msg rest state => .next (parseLine msg state).1 (parseLine msg state).2 rest

theorem readLineWithin_of_fits {rt : Runtime} {state : ReadState}
    (h : ¬ (state.bulkLen ≠ 0 ∧ rt.maxAlloc < bodyLen state)) (input : Bytes) :
    readLineWithin rt input state = readLine input state := if_neg h

theorem round_length {rt : Runtime} {state state' : ReadState} {input rest : Bytes}
    {payloads : List Payload} (h : round rt state input = .next payloads state' rest) :
    rest.length < input.length := by
  unfold round readLineWithin at h
  by_cases hfits : state.bulkLen ≠ 0 ∧ rt.maxAlloc < bodyLen state
  · simp [if_pos hfits] at h
  · rw [if_neg hfits] at h
    cases hr : readLine input state with
    | panic => simp [hr] at h
    | ioErr err => simp [hr] at h
    | protocolErr msg left =>
        simp only [hr, Round.next.injEq] at h
        exact h.2.2 ▸ readLine_protocolErr_length hr
    | line msg left s =>
        simp only [hr, Round.next.injEq] at h
        exact h.2.2 ▸ readLine_line_length hr

def parseWithin (rt : Runtime) (state : ReadState) (input : Bytes) : List Payload :=
  match h : round rt state input with
  | .close payloads => payloads
  | .next payloads state rest =>
      have := round_length h
      payloads ++ parseWithin rt state rest
termination_by input.length

theorem parseWithin_close {rt : Runtime} {state : ReadState} {input : Bytes} {payloads : List Payload}
    (h : round rt state input = .close payloads) : parseWithin rt state input = payloads := by
  rw [parseWithin]
  split
  · rename_i h'
    exact (Round.close.inj (h.symm.trans h')).symm
  · rename_i h'
    exact nomatch h.symm.trans h'

theorem parseWithin_next {rt : Runtime} {state state' : ReadState} {input rest : Bytes}
    {payloads : List Payload} (h : round rt state input = .next payloads state' rest) :
    parseWithin rt state input = payloads ++ parseWithin rt state' rest := by
  rw [parseWithin]
  split
  · rename_i h'
    exact nomatch h.symm.trans h'
  · rename_i h'
    obtain ⟨rfl, rfl, rfl⟩ := Round.next.inj (h.symm.trans h')
    rfl

inductive Visits (rt : Runtime) (input : Bytes) : ReadState → Bytes → Prop
  | start : Visits rt input .zero input
  | next {state state' : ReadState} {rest rest' : Bytes} {payloads : List Payload}
      (h : Visits rt input state rest) (hround : round rt state rest = .next payloads state' rest') :
      Visits rt input state' rest'

def nextLine (state : ReadState) (input : Bytes) : Option (Bytes × Bytes) :=
  if state.bulkLen = 0 then readBytes 10 input
  else if bodyLen state ≤ input.length then
    some (input.take (bodyLen state), input.drop (bodyLen state))
  else none

def Unreadable (state : ReadState) (msg : Bytes) : Prop :=
  if state.readingMultiLine then msg.head? = some 36 ∧ parseInt 64 (headerArg msg) = none
  else match msg.head? with
    | some 42 => parseUint 32 (headerArg msg) = none
    | some 36 => ∀ bulkLen, parseInt 64 (headerArg msg) = some bulkLen → bulkLen < -1
    | some 58 => parseInt 64 (headerArg msg) = none
    | _ => False

def Malformed (state : ReadState) (msg : Bytes) : Prop :=
  ¬ crlf <:+ msg ∨ state.bulkLen = 0 ∧ Unreadable state msg

structure Survives (rt : Runtime) (input : Bytes) : Prop where
  never_panics : ∀ state rest, Visits rt input state rest → readLineWithin rt rest state ≠ .panic
  reports : ∀ state rest msg left, Visits rt input state rest →
    nextLine state rest = some (msg, left) → Malformed state msg →
      round rt state rest = .next [.error (.protocol msg)] .zero left
  closes : ∃ err, (err = .eof ∨ err = .unexpectedEOF) ∧
    (parseWithin rt .zero input).getLast? = some (.error err)

/-- No line is a line feed alone, the buffer for a bulk can be allocated, and a bulk without
a line end is taken for a header that cannot be read. -/
def LinesFit (rt : Runtime) (input : Bytes) : Prop :=
  ∀ state rest, Visits rt input state rest →
    (state.bulkLen = 0 → rest.head? ≠ some 10) ∧
    (state.bulkLen ≠ 0 → bodyLen state ≤ rt.maxAlloc ∧ state.bulkLen + 2 < 2 ^ 63) ∧
    (state.bulkLen ≠ 0 → ∀ msg left, nextLine state rest = some (msg, left) →
      crlf <:+ msg ∨ Unreadable state msg)

theorem readBytes_some {input msg left : Bytes} (h : readBytes 10 input = some (msg, left)) :
    ∃ line, 10 ∉ line ∧ msg = line ++ [10] ∧ input = line ++ 10 :: left := by
  induction input generalizing msg left with
  | nil => simp [readBytes] at h
  | cons b input ih =>
      rw [readBytes] at h
      by_cases hb : b = 10
      · rw [if_pos hb, Option.some.injEq, Prod.mk.injEq] at h
        obtain ⟨rfl, rfl⟩ := h
        exact ⟨[], by simp, by simp [hb], by simp [hb]⟩
      · rw [if_neg hb] at h
        obtain ⟨⟨msg', left'⟩, hr, he⟩ := Option.map_eq_some_iff.mp h
        obtain ⟨line, hline, rfl, rfl⟩ := ih hr
        rw [Prod.mk.injEq] at he
        refine ⟨b :: line, by simp [hline, Ne.symm hb], he.1.symm, ?_⟩
        rw [he.2, List.cons_append]

theorem crlf_suffix_iff {line : Bytes} (h : line ≠ []) :
    crlf <:+ line ++ [10] ↔ (line ++ [10]).getD ((line ++ [10]).length - 2) 0 = 13 := by
  obtain ⟨init, b, rfl⟩ := List.eq_nil_or_concat line |>.resolve_left h
  have hget : (init ++ [b] ++ [10]).getD ((init ++ [b] ++ [10]).length - 2) 0 = b := by
    simp
  rw [List.concat_eq_append, hget, List.append_assoc]
  constructor
  · rintro ⟨before, hbefore⟩
    have hsame := (List.append_inj' hbefore rfl).2
    simpa [crlf] using hsame.symm
  · rintro rfl
    exact ⟨init, rfl⟩

/-- What reading a line comes to where the loop does not panic. -/
theorem readLine_normal_iff {state : ReadState} {input msg left : Bytes} (hstate : state.bulkLen = 0)
    (hhead : input.head? ≠ some 10) (h : readBytes 10 input = some (msg, left)) :
    readLine input state =
      if crlf <:+ msg then .line msg left state else .protocolErr msg left := by
  obtain ⟨line, -, rfl, rfl⟩ := readBytes_some h
  have hne : line ≠ [] := by
    rintro rfl
    exact hhead rfl
  have hlen : ¬ (line ++ [10]).length < 2 := by
    have hpos : 0 < line.length := List.length_pos_iff.mpr hne
    simp only [List.length_append, List.length_singleton]
    omega
  rw [readLine, if_pos hstate, h]
  simp only [if_neg hlen, ne_eq, ← crlf_suffix_iff hne, ite_not]

theorem readLine_panic_iff {state : ReadState} {input : Bytes} : readLine input state = .panic ↔
    state.bulkLen = 0 ∧ input.head? = some 10 ∨ state.bulkLen ≠ 0 ∧ 2 ^ 63 ≤ state.bulkLen + 2 := by
  by_cases hstate : state.bulkLen = 0
  · by_cases hhead : input.head? = some 10
    · obtain ⟨rest, rfl⟩ := List.head?_eq_some_iff.mp hhead
      simp [readLine, hstate, readBytes]
    · cases hr : readBytes 10 input with
      | none => simp [readLine, hstate, hr, hhead]
      | some read =>
          rw [readLine_normal_iff hstate hhead hr]
          split <;> simp [hstate, hhead]
  · rw [readLine, if_neg hstate]
    by_cases hbig : 2 ^ 63 ≤ state.bulkLen + 2
    · exact iff_of_true (if_pos hbig) (.inr ⟨hstate, hbig⟩)
    · have hright : ¬ (state.bulkLen = 0 ∧ input.head? = some 10 ∨
          state.bulkLen ≠ 0 ∧ 2 ^ 63 ≤ state.bulkLen + 2) := by
        rintro (h | h)
        · exact hstate h.1
        · exact hbig h.2
      rw [if_neg hbig]
      split_ifs
      · exact iff_of_false (by simp) hright
      · exact iff_of_false (by simp) hright
      · exact iff_of_false (by simp) hright

theorem readLine_ioErr {state : ReadState} {input : Bytes} {err : Error}
    (h : readLine input state = .ioErr err) : err = .eof ∨ err = .unexpectedEOF := by
  rw [readLine] at h
  by_cases hstate : state.bulkLen = 0
  · rw [if_pos hstate] at h
    cases hr : readBytes 10 input with
    | none =>
        simp only [hr, Read.ioErr.injEq] at h
        exact .inl h.symm
    | some read =>
        simp only [hr] at h
        split_ifs at h
  · rw [if_neg hstate] at h
    split_ifs at h
    · exact .inl (Read.ioErr.inj h).symm
    · exact .inr (Read.ioErr.inj h).symm

/-- Between two lines: a bulk is only read in the middle of a reply. -/
def ReadState.Between (state : ReadState) : Prop :=
  state.readingRepl = false ∧ (state.bulkLen ≠ 0 → state.readingMultiLine = true)

theorem between_zero : ReadState.zero.Between := ⟨rfl, fun h => absurd rfl h⟩

theorem readLine_between {input msg rest : Bytes} {state state' : ReadState}
    (h : readLine input state = .line msg rest state') :
    state'.bulkLen = 0 ∧ state'.readingRepl = state.readingRepl := by
  rw [readLine] at h
  by_cases hb : state.bulkLen = 0
  · rw [if_pos hb] at h
    cases hr : readBytes 10 input with
    | none => simp [hr] at h
    | some read =>
        simp only [hr] at h
        split_ifs at h
        simp only [Read.line.injEq] at h
        rw [← h.2.2]
        exact ⟨hb, rfl⟩
  · rw [if_neg hb] at h
    split_ifs at h
    simp only [Read.line.injEq] at h
    rw [← h.2.2]
    exact ⟨rfl, rfl⟩

theorem receiveHeader_between (msg : Bytes) {state : ReadState} (h : state.readingRepl = false) :
    (receiveHeader msg state).2.Between := by
  unfold receiveHeader
  split
  · cases hm : parseMultiBulkHeader (42 :: _) state with
    | none => exact between_zero
    | some state' =>
        obtain ⟨n, -, rfl⟩ := Option.map_eq_some_iff.mp hm
        by_cases hn : n = 0
        · simp only [if_pos hn]
          exact between_zero
        · simp only [if_neg hn]
          exact ⟨h, fun _ => rfl⟩
  · cases hm : parseBulkHeader (36 :: _) state with
    | none => exact between_zero
    | some read =>
        cases read with
        | none => exact between_zero
        | some state' =>
            obtain ⟨n, -, hn⟩ := Option.bind_eq_some_iff.mp hm
            split_ifs at hn
            · cases hn
            · rw [← Option.some.inj (Option.some.inj hn)]
              exact ⟨h, fun _ => rfl⟩
  · exact between_zero

theorem readBody_keeps {msg : Bytes} {state state' : ReadState} (h : readBody msg state = some state') :
    state'.readingMultiLine = state.readingMultiLine ∧ state'.readingRepl = state.readingRepl := by
  rw [readBody] at h
  split at h
  · obtain ⟨bulkLen, -, rfl⟩ := Option.map_eq_some_iff.mp h
    split
    · exact ⟨rfl, rfl⟩
    · exact ⟨rfl, rfl⟩
  · rw [← Option.some.inj h]
    exact ⟨rfl, rfl⟩

theorem finish_between {state : ReadState} (h : state.Between) : (finish state).2.Between := by
  rw [finish]
  split_ifs
  · exact between_zero
  · exact between_zero
  · exact between_zero
  · exact h

theorem parseLine_between (msg : Bytes) {state : ReadState} (h : state.readingRepl = false) :
    (parseLine msg state).2.Between := by
  by_cases hmulti : state.readingMultiLine = true
  · rw [parseLine_multi hmulti, receiveBody]
    cases hbody : readBody msg state with
    | none => exact between_zero
    | some state' =>
        obtain ⟨hstay, hrepl⟩ := readBody_keeps hbody
        exact finish_between ⟨hrepl.trans h, fun _ => hstay.trans hmulti⟩
  · rw [parseLine, if_neg hmulti]
    exact receiveHeader_between msg h

variable {rt : Runtime} {input : Bytes}

theorem round_between {state state' : ReadState} {rest rest' : Bytes} {payloads : List Payload}
    (h : state.Between) (hround : round rt state rest = .next payloads state' rest') :
    state'.Between := by
  unfold round readLineWithin at hround
  by_cases hfits : state.bulkLen ≠ 0 ∧ rt.maxAlloc < bodyLen state
  · simp [if_pos hfits] at hround
  · rw [if_neg hfits] at hround
    cases hr : readLine rest state with
    | panic => simp [hr] at hround
    | ioErr err => simp [hr] at hround
    | protocolErr msg left =>
        simp only [hr, Round.next.injEq] at hround
        exact hround.2.1 ▸ between_zero
    | line msg left s =>
        simp only [hr, Round.next.injEq] at hround
        exact hround.2.1 ▸ parseLine_between msg ((readLine_between hr).2.trans h.1)

theorem Visits.between {state : ReadState} {rest : Bytes} (h : Visits rt input state rest) :
    state.Between := by
  induction h with
  | start => exact between_zero
  | next _ hround ih => exact round_between ih hround

theorem round_normal {state : ReadState} {rest msg left : Bytes} (hstate : state.bulkLen = 0)
    (hhead : rest.head? ≠ some 10) (h : readBytes 10 rest = some (msg, left)) :
    round rt state rest =
      if crlf <:+ msg then .next (parseLine msg state).1 (parseLine msg state).2 left
      else .next [.error (.protocol msg)] .zero left := by
  rw [round, readLineWithin, if_neg (fun hn => hn.1 hstate), readLine_normal_iff hstate hhead h]
  by_cases hend : crlf <:+ msg
  · simp only [if_pos hend]
  · simp only [if_neg hend]

theorem round_bulk {state : ReadState} {rest msg left : Bytes} (hstate : state.bulkLen ≠ 0)
    (hfits : bodyLen state ≤ rt.maxAlloc ∧ state.bulkLen + 2 < 2 ^ 63)
    (h : nextLine state rest = some (msg, left)) :
    round rt state rest = .next (parseLine msg { state with bulkLen := 0 }).1
      (parseLine msg { state with bulkLen := 0 }).2 left := by
  rw [nextLine, if_neg hstate] at h
  by_cases hlen : bodyLen state ≤ rest.length
  · rw [if_pos hlen, Option.some.injEq, Prod.mk.injEq] at h
    have hpos : 0 < bodyLen state := by
      rw [bodyLen]
      split <;> omega
    have hne : rest ≠ [] := List.ne_nil_of_length_pos (by omega)
    rw [round, readLineWithin, if_neg (by omega), readLine, if_neg hstate, if_neg (by omega),
      if_neg hne, if_neg (by omega), h.1, h.2]
  · simp [if_neg hlen] at h

/-- The arguments of a header can be allocated. -/
theorem header_fits (rt : Runtime) {msg : Bytes} {state state' : ReadState}
    (h : parseMultiBulkHeader msg state = some state') :
    24 * state'.expectedArgsCount ≤ rt.maxAlloc := by
  obtain ⟨n, hn, rfl⟩ := Option.map_eq_some_iff.mp h
  have hfit := rt.arguments_fit
  split
  · simp
  · have hlt := parseUint_lt hn
    dsimp only
    omega

theorem parse0_ioErr {input : Bytes} {state : ReadState} {err : Error}
    (h : readLine input state = .ioErr err) : parse0 state input = [.error err] := by
  rw [parse0]
  split <;> simp_all

/-- Where every bulk can be allocated, the limit makes no difference. -/
theorem parseWithin_eq (h : ∀ state rest, Visits rt input state rest → state.bulkLen ≠ 0 →
      bodyLen state ≤ rt.maxAlloc) {state : ReadState} {rest : Bytes}
    (hvisits : Visits rt input state rest) : parseWithin rt state rest = parse0 state rest := by
  induction hn : rest.length using Nat.strongRecOn generalizing state rest with
  | _ n ih =>
      have hfits : ¬ (state.bulkLen ≠ 0 ∧ rt.maxAlloc < bodyLen state) := fun hbig =>
        absurd (h state rest hvisits hbig.1) (by omega)
      have hread := readLineWithin_of_fits hfits rest
      cases hr : readLine rest state with
      | panic =>
          rw [parse0_panic hr]
          exact parseWithin_close (by rw [round, hread, hr])
      | ioErr err =>
          rw [parse0_ioErr hr]
          exact parseWithin_close (by rw [round, hread, hr])
      | protocolErr msg left =>
          have hround : round rt state rest = .next [.error (.protocol msg)] .zero left := by
            rw [round, hread, hr]
          rw [parseWithin_next hround,
            ih left.length (hn ▸ round_length hround) (hvisits.next hround) rfl,
            parse0_protocolErr hr]
          rfl
      | line msg left state' =>
          have hround : round rt state rest =
              .next (parseLine msg state').1 (parseLine msg state').2 left := by
            rw [round, hread, hr]
          rw [parseWithin_next hround,
            ih left.length (hn ▸ round_length hround) (hvisits.next hround) rfl, parse0_line hr]

theorem headerArg_eq {b : UInt8} {s msg : Bytes} (h : msg.take (msg.length - 2) = b :: s) :
    headerArg msg = s ∧ msg.head? = some b := by
  refine ⟨by rw [headerArg, h]; rfl, ?_⟩
  cases msg with
  | nil => simp at h
  | cons a msg =>
      rw [List.length_cons] at h
      cases hn : msg.length + 1 - 2 with
      | zero => simp [hn] at h
      | succ n => simpa [hn] using congrArg List.head? h

theorem take_eq_headerArg {b : UInt8} {msg : Bytes} (h : 3 ≤ (b :: msg).length) :
    (b :: msg).take ((b :: msg).length - 2) = b :: headerArg (b :: msg) := by
  obtain ⟨n, hn⟩ := Nat.exists_eq_add_of_le h
  have hlen : (b :: msg).length - 2 = n + 1 := by omega
  rw [headerArg, hlen]
  rfl

theorem receiveHeader_unreadable {b : UInt8} {msg : Bytes} {state : ReadState}
    (hlen : 3 ≤ (b :: msg).length) (hmulti : ¬ state.readingMultiLine = true)
    (h : Unreadable state (b :: msg)) :
    receiveHeader (b :: msg) state = ([.error (.protocol (b :: msg))], .zero) := by
  rw [Unreadable, if_neg hmulti, List.head?_cons] at h
  split at h
  · obtain rfl := Option.some.inj ‹some b = some 42›
    simp [receiveHeader, parseMultiBulkHeader, h]
  · obtain rfl := Option.some.inj ‹some b = some 36›
    have hnone : parseBulkHeader (36 :: msg) state = none := by
      rw [parseBulkHeader]
      cases hn : parseInt 64 (headerArg (36 :: msg)) with
      | none => rfl
      | some bulkLen =>
          have hneg := h bulkLen hn
          rw [Option.bind_some, if_neg (by omega), if_neg (by omega)]
    simp only [receiveHeader, hnone]
  · obtain rfl := Option.some.inj ‹some b = some 58›
    have htake := take_eq_headerArg hlen
    have hsingle : parseSingleLineReply (58 :: msg) = .error (.protocol (58 :: msg)) := by
      simp only [parseSingleLineReply, htake, h]
    exact congrArg (fun p => ([p], ReadState.zero)) hsingle
  · exact h.elim

/-- A line of at least three bytes that announces a number which cannot be read. -/
theorem parseLine_unreadable {state : ReadState} {msg : Bytes} (hlen : 3 ≤ msg.length)
    (h : Unreadable state msg) : parseLine msg state = ([.error (.protocol msg)], .zero) := by
  obtain ⟨b, msg, rfl⟩ := List.exists_cons_of_length_pos (show 0 < msg.length by omega)
  by_cases hmulti : state.readingMultiLine = true
  · rw [Unreadable, if_pos hmulti] at h
    obtain rfl : b = 36 := by simpa using h.1
    rw [parseLine_multi hmulti, receiveBody, readBody, take_eq_headerArg hlen]
    simp [h.2]
  · rw [parseLine, if_neg hmulti, receiveHeader_unreadable hlen hmulti h]

/-- A line with a line end that announces a number has at least three bytes. -/
theorem length_of_unreadable {state : ReadState} {msg : Bytes} (hend : crlf <:+ msg)
    (h : Unreadable state msg) : 3 ≤ msg.length := by
  obtain ⟨before, rfl⟩ := hend
  cases before with
  | nil =>
      rw [Unreadable] at h
      split at h
      · simp [crlf] at h
      · simp [crlf] at h
  | cons b before => simp [crlf]

theorem nextLine_length {state : ReadState} {rest msg left : Bytes} (hstate : state.bulkLen ≠ 0)
    (hbetween : state.Between) (h : nextLine state rest = some (msg, left)) : 3 ≤ msg.length := by
  rw [nextLine, if_neg hstate] at h
  by_cases hlen : bodyLen state ≤ rest.length
  · rw [if_pos hlen, Option.some.injEq, Prod.mk.injEq] at h
    rw [← h.1, List.length_take, bodyLen, hbetween.1]
    rw [bodyLen, hbetween.1] at hlen
    simp only [Bool.false_eq_true, if_false] at hlen ⊢
    omega
  · simp [if_neg hlen] at h

theorem LinesFit.not_panic (h : LinesFit rt input) {state : ReadState} {rest : Bytes}
    (hvisits : Visits rt input state rest) : readLineWithin rt rest state ≠ .panic := by
  obtain ⟨hline, hbulk, -⟩ := h state rest hvisits
  rw [readLineWithin, if_neg (fun hn => absurd (hbulk hn.1).1 (by omega)), ne_eq, readLine_panic_iff]
  rintro (⟨hstate, hhead⟩ | ⟨hstate, hbig⟩)
  · exact hline hstate hhead
  · exact absurd (hbulk hstate).2 (by omega)

theorem LinesFit.reports (h : LinesFit rt input) {state : ReadState} {rest msg left : Bytes}
    (hvisits : Visits rt input state rest) (hnext : nextLine state rest = some (msg, left))
    (hmalformed : Malformed state msg) :
    round rt state rest = .next [.error (.protocol msg)] .zero left := by
  obtain ⟨hline, hbulk, hend⟩ := h state rest hvisits
  by_cases hstate : state.bulkLen = 0
  · rw [nextLine, if_pos hstate] at hnext
    rw [round_normal hstate (hline hstate) hnext]
    by_cases hcrlf : crlf <:+ msg
    · have hunreadable := (hmalformed.resolve_left (not_not.mpr hcrlf)).2
      rw [if_pos hcrlf, parseLine_unreadable (length_of_unreadable hcrlf hunreadable) hunreadable]
    · rw [if_neg hcrlf]
  · have hcrlf := hmalformed.resolve_right fun hn => hstate hn.1
    have hunreadable := (hend hstate msg left hnext).resolve_left hcrlf
    have hlen := nextLine_length hstate hvisits.between hnext
    have hparse : parseLine msg { state with bulkLen := 0 } = _ :=
      parseLine_unreadable hlen hunreadable
    rw [round_bulk hstate (hbulk hstate) hnext, hparse]

/-- The last payload is the end of the input. -/
theorem LinesFit.closes (h : LinesFit rt input) {state : ReadState} {rest : Bytes}
    (hvisits : Visits rt input state rest) :
    ∃ err, (err = .eof ∨ err = .unexpectedEOF) ∧
      (parseWithin rt state rest).getLast? = some (.error err) := by
  induction hn : rest.length using Nat.strongRecOn generalizing state rest with
  | _ n ih =>
      cases hround : round rt state rest with
      | close payloads =>
        rw [parseWithin_close hround]
        have hpanic := h.not_panic hvisits
        rw [round] at hround
        split at hround
        · exact absurd ‹_› hpanic
        · rename_i err hread
          refine ⟨err, ?_, by rw [← Round.close.inj hround]; rfl⟩
          rw [readLineWithin] at hread
          split_ifs at hread
          exact readLine_ioErr hread
        · simp at hround
        · simp at hround
      | next payloads state' rest' =>
        rw [parseWithin_next hround]
        obtain ⟨err, herr, hlast⟩ :=
          ih rest'.length (hn ▸ round_length hround) (hvisits.next hround) rfl
        refine ⟨err, herr, ?_⟩
        rw [List.getLast?_append, hlast]
        rfl

theorem survives_of_linesFit (h : LinesFit rt input) : Survives rt input where
  never_panics _ _ hvisits := h.not_panic hvisits
  reports _ _ _ _ hvisits hnext hmalformed := h.reports hvisits hnext hmalformed
  closes := h.closes .start

theorem parseLine_error {state : ReadState} {msg : Bytes} (hmulti : state.readingMultiLine = true)
    (h : parseLine msg state = ([.error (.protocol msg)], .zero)) : Unreadable state msg := by
  rw [Unreadable, if_pos hmulti]
  rw [parseLine_multi hmulti, receiveBody] at h
  cases hbody : readBody msg state with
  | none =>
      rw [readBody] at hbody
      split at hbody
      · obtain ⟨harg, hhead⟩ := headerArg_eq ‹_›
        exact ⟨hhead, harg ▸ Option.map_eq_none_iff.mp hbody⟩
      · cases hbody
  | some state' =>
      simp only [hbody, finish] at h
      split_ifs at h
      · simp [Payload.reply, Payload.error] at h
      · simp [Payload.reply, Payload.error] at h
      · simp [Payload.error] at h
      · simp at h

theorem linesFit_of_survives (h : Survives rt input) : LinesFit rt input := by
  intro state rest hvisits
  have hpanic := h.never_panics state rest hvisits
  have hfits (hstate : state.bulkLen ≠ 0) : bodyLen state ≤ rt.maxAlloc ∧ state.bulkLen + 2 < 2 ^ 63 := by
    rw [readLineWithin] at hpanic
    by_cases hbig : rt.maxAlloc < bodyLen state
    · exact absurd (if_pos ⟨hstate, hbig⟩) hpanic
    · rw [if_neg (fun hn => hbig hn.2), ne_eq, readLine_panic_iff, not_or] at hpanic
      refine ⟨by omega, ?_⟩
      by_contra hle
      exact hpanic.2 ⟨hstate, by omega⟩
  refine ⟨fun hstate hhead => hpanic ?_, hfits, fun hstate msg left hnext => ?_⟩
  · rw [readLineWithin, if_neg (fun hn => hn.1 hstate), readLine_panic_iff]
    exact .inl ⟨hstate, hhead⟩
  · by_contra hnot
    rw [not_or] at hnot
    have hround := h.reports state rest msg left hvisits hnext (.inl hnot.1)
    rw [round_bulk hstate (hfits hstate) hnext, Round.next.injEq] at hround
    refine hnot.2 (@parseLine_error { state with bulkLen := 0 } msg (hvisits.between.2 hstate)
      (Prod.ext hround.1 hround.2.1))

/-- The parser gets over everything that is wrong in its input exactly if no line is a line
feed alone, no bulk is too long to be allocated, and no bulk without a line end passes for
an argument. -/
theorem survives_iff (rt : Runtime) (input : Bytes) : Survives rt input ↔ LinesFit rt input :=
  ⟨linesFit_of_survives, survives_of_linesFit⟩

def linuxRuntime : Runtime := ⟨2 ^ 48, by decide⟩

/-- A line feed alone. -/
theorem not_survives : ¬ ∀ (rt : Runtime) (input : Bytes), Survives rt input := by
  intro h
  exact (h linuxRuntime [10]).never_panics .zero [10] .start rfl

end Traitor.Parser
