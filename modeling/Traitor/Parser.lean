import Traitor.Protocol

namespace Traitor.Parser

open Lib.Strconv Protocol

/-- Between two lines the length of the next bulk is never negative: a negative
one is answered at once or counts as an empty argument. -/
structure ReadState where
  readingMultiLine : Bool
  expectedArgsCount : Nat
  msgType : UInt8
  args : List Bytes
  bulkLen : Nat
  readingRepl : Bool

def ReadState.zero : ReadState := ⟨false, 0, 0, [], 0, false⟩

def ReadState.finished (s : ReadState) : Bool :=
  s.expectedArgsCount > 0 && s.args.length = s.expectedArgsCount

inductive Error
  | eof
  | unexpectedEOF
  | protocol (msg : Bytes)
deriving DecidableEq

structure Payload where
  data : Option Reply
  err : Option Error

def Payload.reply (r : Reply) : Payload := ⟨some r, none⟩

def Payload.error (e : Error) : Payload := ⟨none, some e⟩

def readBytes (delim : UInt8) : Bytes → Option (Bytes × Bytes)
  | [] => none
  | b :: input =>
      if b = delim then some ([b], input)
      else (readBytes delim input).map fun (msg, rest) => (b :: msg, rest)

inductive Read
  | panic
  | ioErr (err : Error)
  | protocolErr (msg rest : Bytes)
  | line (msg rest : Bytes) (state : ReadState)

def bodyLen (state : ReadState) : Nat :=
  if state.readingRepl then state.bulkLen else state.bulkLen + 2

/-- A line of one byte has no byte before its last, and the length of a bulk with
its line end can overflow to a negative one. -/
def readLine (input : Bytes) (state : ReadState) : Read :=
  if state.bulkLen = 0 then
    match readBytes 10 input with
    | none => .ioErr .eof
    | some (msg, rest) =>
        if msg.length < 2 then .panic
        else if msg.getD (msg.length - 2) 0 ≠ 13 then .protocolErr msg rest
        else .line msg rest state
  else if 2 ^ 63 ≤ state.bulkLen + 2 then .panic
  else if input = [] then .ioErr .eof
  else if input.length < bodyLen state then .ioErr .unexpectedEOF
  else .line (input.take (bodyLen state)) (input.drop (bodyLen state)) { state with bulkLen := 0 }

def headerArg (msg : Bytes) : Bytes := (msg.take (msg.length - 2)).drop 1

/-- The outer none is an error, the inner one the null bulk. -/
def parseBulkHeader (msg : Bytes) (state : ReadState) : Option (Option ReadState) :=
  (parseInt 64 (headerArg msg)).bind fun bulkLen =>
    if bulkLen = -1 then some none
    else if 0 ≤ bulkLen then
      some (some { state with
        bulkLen := bulkLen.toNat
        msgType := msg.headD 0
        readingMultiLine := true
        expectedArgsCount := 1
        args := [] })
    else none

def parseMultiBulkHeader (msg : Bytes) (state : ReadState) : Option ReadState :=
  (parseUint 32 (headerArg msg)).map fun expectedLine =>
    if expectedLine = 0 then { state with expectedArgsCount := 0 }
    else
      { state with
        msgType := msg.headD 0
        readingMultiLine := true
        expectedArgsCount := expectedLine
        args := [] }

def parseSingleLineReply (msg : Bytes) : Payload :=
  let str := msg.take (msg.length - 2)
  match str with
  | 43 :: s => .reply (.status s)
  | 45 :: s => .reply (.standardErr s)
  | 58 :: s =>
      match parseInt 64 s with
      | some val => .reply (.int val)
      | none => .error (.protocol msg)
  | _ => .reply (.multiBulk ((str.splitOn 32).map some))

/-- A body that starts with a dollar sign is taken for the header of a bulk. -/
def readBody (msg : Bytes) (state : ReadState) : Option ReadState :=
  match msg.take (msg.length - 2) with
  | 36 :: s =>
      (parseInt 64 s).map fun bulkLen =>
        if bulkLen < 0 then { state with args := state.args ++ [[]], bulkLen := 0 }
        else { state with bulkLen := bulkLen.toNat }
  | line => some { state with args := state.args ++ [line] }

def receiveHeader (msg : Bytes) (state : ReadState) : List Payload × ReadState :=
  match msg with
  | 42 :: _ =>
      match parseMultiBulkHeader msg state with
      | none => ([.error (.protocol msg)], .zero)
      | some state =>
          if state.expectedArgsCount = 0 then ([.reply .emptyMultiBulk], .zero) else ([], state)
  | 36 :: _ =>
      match parseBulkHeader msg state with
      | none => ([.error (.protocol msg)], .zero)
      | some none => ([.reply .nullBulk], .zero)
      | some (some state) => ([], state)
  | _ => ([parseSingleLineReply msg], .zero)

def finish (state : ReadState) : List Payload × ReadState :=
  if state.finished then
    if state.msgType = 42 then ([.reply (.multiBulk (state.args.map some))], .zero)
    else if state.msgType = 36 then ([.reply (.bulk state.args.head?)], .zero)
    else ([⟨none, none⟩], .zero)
  else ([], state)

def receiveBody (msg : Bytes) (state : ReadState) : List Payload × ReadState :=
  match readBody msg state with
  | none => ([.error (.protocol msg)], .zero)
  | some state => finish state

def parseLine (msg : Bytes) (state : ReadState) : List Payload × ReadState :=
  if state.readingMultiLine then receiveBody msg state else receiveHeader msg state

theorem readBytes_length {delim : UInt8} {input msg rest : Bytes}
    (h : readBytes delim input = some (msg, rest)) : rest.length < input.length := by
  induction input generalizing msg rest with
  | nil => simp [readBytes] at h
  | cons b input ih =>
      rw [readBytes] at h
      split at h
      · simp only [Option.some.injEq, Prod.mk.injEq] at h
        simp [← h.2]
      · obtain ⟨⟨msg', rest'⟩, hr, he⟩ := Option.map_eq_some_iff.mp h
        have hlt := ih hr
        simp only [Prod.mk.injEq] at he
        rw [← he.2, List.length_cons]
        omega

theorem readLine_protocolErr_length {input msg rest : Bytes} {state : ReadState}
    (h : readLine input state = .protocolErr msg rest) : rest.length < input.length := by
  rw [readLine] at h
  by_cases hb : state.bulkLen = 0
  · rw [if_pos hb] at h
    cases hr : readBytes 10 input with
    | none => simp [hr] at h
    | some read =>
        have hlt := @readBytes_length _ _ read.1 read.2 hr
        simp only [hr] at h
        split_ifs at h
        simp only [Read.protocolErr.injEq] at h
        rwa [← h.2]
  · rw [if_neg hb] at h
    split_ifs at h

theorem readLine_line_length {input msg rest : Bytes} {state state' : ReadState}
    (h : readLine input state = .line msg rest state') : rest.length < input.length := by
  rw [readLine] at h
  by_cases hb : state.bulkLen = 0
  · rw [if_pos hb] at h
    cases hr : readBytes 10 input with
    | none => simp [hr] at h
    | some read =>
        have hlt := @readBytes_length _ _ read.1 read.2 hr
        simp only [hr] at h
        split_ifs at h
        simp only [Read.line.injEq] at h
        rwa [← h.2.1]
  · rw [if_neg hb] at h
    split_ifs at h with _ hne _
    simp only [Read.line.injEq] at h
    have hpos : 0 < input.length := List.length_pos_iff.mpr hne
    have hbody : 0 < bodyLen state := by
      rw [bodyLen]
      split <;> omega
    rw [← h.2.1, List.length_drop]
    omega

/-- The payloads sent until the channel is closed, by an end of input or a panic. -/
def parse0 (state : ReadState) (input : Bytes) : List Payload :=
  match h : readLine input state with
  | .panic => []
  | .ioErr err => [.error err]
  | .protocolErr msg rest =>
      have := readLine_protocolErr_length h
      .error (.protocol msg) :: parse0 .zero rest
  | .line msg rest state =>
      have := readLine_line_length h
      (parseLine msg state).1 ++ parse0 (parseLine msg state).2 rest
termination_by input.length

def parseStream (input : Bytes) : List Payload := parse0 .zero input

end Traitor.Parser
