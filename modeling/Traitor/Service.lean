import Traitor.TornLog

namespace Traitor.Service

open Lib.Strconv Protocol Traitor.Parser Codec Framing

variable {S : Type}

def Intact : Reply → Prop
  | .bulk arg => ∀ b, arg = some b → ¬ Dollar b ∧ b.length + 2 < 2 ^ 63
  | .multiBulk args => Safe (args.map (·.getD []))
  | .int code => -2 ^ 63 ≤ code ∧ code < 2 ^ 63
  | .status text | .standardErr text | .argNumErr text => 10 ∉ text
  | .multiRaw _ | .noReply => False
  | _ => True

/-- The reply that a client reads. A nil argument of several comes as an empty one. -/
def received : Reply → Reply
  | .bulk none => .nullBulk
  | .multiBulk args => if args = [] then .emptyMultiBulk else .multiBulk (args.map fun a => some (a.getD []))
  | .pong => .status (bytes "PONG")
  | .ok => .status (bytes "OK")
  | .queued => .status (bytes "QUEUED")
  | .unknownErr => .standardErr (bytes "Err unknown")
  | .argNumErr cmd => .standardErr (argNumText cmd)
  | .syntaxErr => .standardErr (bytes "Err syntax error")
  | .wrongTypeErr =>
      .standardErr (bytes "WRONGTYPE Operation against a key holding the wrong kind of value")
  | reply => reply

theorem parse0_single {b : UInt8} {text : Bytes} (hmulti : b ≠ 42) (hbulk : b ≠ 36)
    (h : 10 ∉ b :: text) (rest : Bytes) :
    parse0 .zero (b :: text ++ crlf ++ rest) =
      parseSingleLineReply (b :: text ++ crlf) :: parse0 .zero rest := by
  rw [parse0_line (readLine_normal h rest rfl)]
  have hsingle := @receiveHeader_single (b :: text ++ crlf) (by simp [hmulti]) (by simp [hbulk]) .zero
  change (receiveHeader (b :: text ++ crlf) .zero).1 ++
    parse0 (receiveHeader (b :: text ++ crlf) .zero).2 rest = _
  rw [hsingle]
  rfl

theorem parse0_status {text : Bytes} (h : 10 ∉ text) (rest : Bytes) :
    parse0 .zero (bytes "+" ++ text ++ crlf ++ rest) = .reply (.status text) :: parse0 .zero rest := by
  have hline : (10 : UInt8) ∉ 43 :: text := by simp [h]
  refine (parse0_single (by decide) (by decide) hline rest).trans ?_
  rw [parseSingleLineReply, take_crlf]
  rfl

theorem parse0_standardErr {text : Bytes} (h : 10 ∉ text) (rest : Bytes) :
    parse0 .zero (bytes "-" ++ text ++ crlf ++ rest) =
      .reply (.standardErr text) :: parse0 .zero rest := by
  have hline : (10 : UInt8) ∉ 45 :: text := by simp [h]
  refine (parse0_single (by decide) (by decide) hline rest).trans ?_
  rw [parseSingleLineReply, take_crlf]
  rfl

theorem parse0_int {code : Int} (hlow : -2 ^ 63 ≤ code) (hhigh : code < 2 ^ 63) (rest : Bytes) :
    parse0 .zero (bytes ":" ++ formatInt code ++ crlf ++ rest) =
      .reply (.int code) :: parse0 .zero rest := by
  have hline : (10 : UInt8) ∉ 58 :: formatInt code := by simp [newline_not_mem_formatInt]
  refine (parse0_single (by decide) (by decide) hline rest).trans ?_
  have hparse : parseInt 64 (formatInt code) = some code := parseInt_formatInt hlow hhigh
  rw [parseSingleLineReply, take_crlf]
  simp only [hparse]

theorem parse0_nullBulk (rest : Bytes) :
    parse0 .zero (bytes "$-1" ++ crlf ++ rest) = .reply .nullBulk :: parse0 .zero rest := by
  rw [parse0_line (readLine_normal (by decide) rest rfl)]
  rfl

theorem parse0_bulk {arg : Bytes} (hdollar : ¬ Dollar arg) (hlen : arg.length + 2 < 2 ^ 63)
    (rest : Bytes) :
    parse0 .zero (bulkBytes (some arg) ++ rest) = .reply (.bulk (some arg)) :: parse0 .zero rest := by
  have hb : readBody (arg ++ crlf) (readingBulk [] 0) = some (readingBulk [arg] 0) := by
    rw [readBody, take_crlf]
    split
    · exact absurd rfl hdollar
    · rfl
  rw [parse0_bulkArg hlen, receiveBody, hb]
  rfl

/-- One payload is read, which is the reply. -/
theorem parse0_intact {reply : Reply} (h : Intact reply) (rest : Bytes) :
    parse0 .zero (reply.toBytes ++ rest) = .reply (received reply) :: parse0 .zero rest := by
  cases reply with
  | bulk arg =>
      cases arg with
      | none => exact parse0_nullBulk rest
      | some arg => exact parse0_bulk (h arg rfl).1 (h arg rfl).2 rest
  | multiBulk args =>
      by_cases hnil : args = []
      · subst hnil
        exact parse0_countLine_zero rest
      · rw [received, if_neg hnil]
        refine (parse0_multiBulk hnil h rest).trans ?_
        simp [decoded, Function.comp_def]
  | multiRaw replies => exact h.elim
  | noReply => exact h.elim
  | status text => exact parse0_status h rest
  | int code => exact parse0_int h.1 h.2 rest
  | standardErr text => exact parse0_standardErr h rest
  | argNumErr cmd =>
      have hline : (10 : UInt8) ∉ argNumText cmd := by
        have hmem := (mem_argNumText cmd).not.mpr h
        exact fun ht => hmem (List.mem_cons_of_mem _ ht)
      refine Eq.trans ?_ (parse0_standardErr hline rest)
      simp [Reply.toBytes, argNumText, bytes]
  | pong => exact parse0_status (by decide) rest
  | ok => exact parse0_status (by decide) rest
  | nullBulk => exact parse0_nullBulk rest
  | emptyMultiBulk => exact parse0_countLine_zero rest
  | queued => exact parse0_status (by decide) rest
  | unknownErr => exact parse0_standardErr (by decide) rest
  | syntaxErr => exact parse0_standardErr (by decide) rest
  | wrongTypeErr => exact parse0_standardErr (by decide) rest

theorem parseStream_replies {replies : List Reply} (h : ∀ reply ∈ replies, Intact reply) (rest : Bytes) :
    parseStream (replies.flatMap Reply.toBytes ++ rest) =
      replies.map (fun reply => .reply (received reply)) ++ parseStream rest := by
  induction replies with
  | nil => rfl
  | cons reply replies ih =>
      rw [List.flatMap_cons, List.append_assoc, parseStream, parse0_intact (h reply List.mem_cons_self)]
      exact congrArg _ (ih fun r hr => h r (List.mem_cons_of_mem _ hr))

def unknownErrReplyBytes : Bytes := bytes "-ERR unknown" ++ crlf

/-- What is written for a result. No write is made of no bytes. -/
def answer : Option Reply → Bytes
  | some result => result.toBytes
  | none => unknownErrReplyBytes

/-- The bytes that the loop over the payloads writes to a connection, and the database as it
leaves it. The end of the input closes the connection, and no payload is left after a panic of
the parser. -/
def handleServer (exec : S → List (Option Bytes) → Option Reply × S) : List Payload → S → Bytes × S
  | [], s => ([], s)
  | p :: payloads, s =>
      match p.err, p.data with
      | some .eof, _ => ([], s)
      | some .unexpectedEOF, _ => ([], s)
      | some (.protocol msg), _ =>
          let (out, s) := handleServer exec payloads s
          ((Reply.standardErr (bytes "protocol error: " ++ msg)).toBytes ++ out, s)
      | none, some (.multiBulk args) =>
          let (result, s) := exec s args
          let (out, s) := handleServer exec payloads s
          (answer result ++ out, s)
      | none, _ => handleServer exec payloads s

def execAll (exec : S → List (Option Bytes) → Option Reply × S) :
    List (List Bytes) → S → List (Option Reply) × S
  | [], s => ([], s)
  | line :: lines, s =>
      let (result, s) := exec s (line.map some)
      let (results, s) := execAll exec lines s
      (result :: results, s)

variable {exec : S → List (Option Bytes) → Option Reply × S}

theorem handleServer_decoded (lines : List (List Bytes)) (err : Error) (s : S)
    (herr : err = .eof ∨ err = .unexpectedEOF) :
    handleServer exec (lines.map decoded ++ [.error err]) s =
      ((execAll exec lines s).1.flatMap answer, (execAll exec lines s).2) := by
  induction lines generalizing s with
  | nil => rcases herr with rfl | rfl <;> rfl
  | cons line lines ih =>
      have hstep : handleServer exec (decoded line :: (lines.map decoded ++ [.error err])) s =
          (answer (exec s (line.map some)).1 ++
            (handleServer exec (lines.map decoded ++ [.error err]) (exec s (line.map some)).2).1,
            (handleServer exec (lines.map decoded ++ [.error err]) (exec s (line.map some)).2).2) := rfl
      rw [List.map_cons, List.cons_append, hstep, ih]
      rfl

/-- Whatever part of the requests has come in, those that are there as a whole are executed,
each once and in their order, and the client reads one reply for each. -/
theorem served_in_order (exec : S → List (Option Bytes) → Option Reply × S) {lines : List (List Bytes)}
    (hne : ∀ line ∈ lines, line ≠ []) (hsafe : ∀ line ∈ lines, Safe line) (n : Nat) (s : S)
    {replies : List Reply} (hreplies : (execAll exec (whole n lines) s).1 = replies.map some)
    (hintact : ∀ reply ∈ replies, Intact reply) (rest : Bytes) :
    (handleServer exec (parseStream ((lines.flatMap encode).take n)) s).2 =
        (execAll exec (whole n lines) s).2 ∧
      parseStream ((handleServer exec (parseStream ((lines.flatMap encode).take n)) s).1 ++ rest) =
        replies.map (fun reply => .reply (received reply)) ++ parseStream rest := by
  obtain ⟨err, hparse, herr⟩ := parseStream_take hne hsafe n
  rw [hparse, handleServer_decoded _ _ _ herr, hreplies]
  refine ⟨rfl, ?_⟩
  rw [List.flatMap_map]
  exact parseStream_replies hintact rest

def countRequests (s : Nat) (_line : List (Option Bytes)) : Option Reply × Nat := (some (.int s), s + 1)

/-- The second request is cut off in the middle. -/
theorem served_in_order_countRequests :
    (handleServer countRequests (parseStream (([[bytes "a"], [bytes "b"]].flatMap encode).take 16)) 0).2 =
        (execAll countRequests (whole 16 [[bytes "a"], [bytes "b"]]) 0).2 ∧
      parseStream ((handleServer countRequests
          (parseStream (([[bytes "a"], [bytes "b"]].flatMap encode).take 16)) 0).1 ++ []) =
        [Reply.int 0].map (fun reply => .reply (received reply)) ++ parseStream [] := by
  refine served_in_order countRequests (by simp) (by decide +kernel) 16 0 rfl ?_ []
  intro reply hreply
  obtain rfl := List.mem_singleton.mp hreply
  exact ⟨by decide, by decide⟩

end Traitor.Service
