import Traitor.Basic
import Traitor.Lib.Strconv

namespace Traitor.Protocol

open Lib.Strconv

/-- A nil byte slice is none; most commands answer it as the null bulk. -/
inductive Reply
  | bulk (arg : Option Bytes)
  | multiBulk (args : List (Option Bytes))
  | multiRaw (replies : List Reply)
  | status (status : Bytes)
  | int (code : Int)
  | standardErr (status : Bytes)
  | pong
  | ok
  | nullBulk
  | emptyMultiBulk
  | noReply
  | queued
  | unknownErr
  | argNumErr (cmd : Bytes)
  | syntaxErr
  | wrongTypeErr

def crlf : Bytes := [13, 10]

def bulkBytes : Option Bytes → Bytes
  | none => bytes "$-1" ++ crlf
  | some arg => bytes "$" ++ formatNat arg.length ++ crlf ++ arg ++ crlf

def multiBulkBytes (args : List (Option Bytes)) : Bytes :=
  bytes "*" ++ formatNat args.length ++ crlf ++ args.flatMap bulkBytes

mutual

def Reply.toBytes : Reply → Bytes
  | .bulk arg => bulkBytes arg
  | .multiBulk args => multiBulkBytes args
  | .multiRaw replies => bytes "*" ++ formatNat replies.length ++ crlf ++ toBytesAll replies
  | .status status => bytes "+" ++ status ++ crlf
  | .int code => bytes ":" ++ formatInt code ++ crlf
  | .standardErr status => bytes "-" ++ status ++ crlf
  | .pong => bytes "+PONG" ++ crlf
  | .ok => bytes "+OK" ++ crlf
  | .nullBulk => bytes "$-1" ++ crlf
  | .emptyMultiBulk => bytes "*0" ++ crlf
  | .noReply => []
  | .queued => bytes "+QUEUED" ++ crlf
  | .unknownErr => bytes "-Err unknown" ++ crlf
  | .argNumErr cmd =>
      bytes "-ERR wrong number of arguments for '" ++ cmd ++ bytes "' command" ++ crlf
  | .syntaxErr => bytes "-Err syntax error" ++ crlf
  | .wrongTypeErr =>
      bytes "-WRONGTYPE Operation against a key holding the wrong kind of value" ++ crlf

def toBytesAll : List Reply → Bytes
  | [] => []
  | reply :: replies => reply.toBytes ++ toBytesAll replies

end

def isErrorReply (reply : Reply) : Bool := reply.toBytes.head? = some 45

section

open Reply

@[simp] theorem isErrorReply_bulk (arg : Option Bytes) : isErrorReply (bulk arg) = false := by
  cases arg <;> rfl

@[simp] theorem isErrorReply_multiBulk (args : List (Option Bytes)) :
    isErrorReply (multiBulk args) = false := rfl

@[simp] theorem isErrorReply_int (code : Int) : isErrorReply (int code) = false := rfl

@[simp] theorem isErrorReply_standardErr (status : Bytes) :
    isErrorReply (standardErr status) = true := rfl

@[simp] theorem isErrorReply_ok : isErrorReply ok = false := rfl

@[simp] theorem isErrorReply_nullBulk : isErrorReply nullBulk = false := rfl

@[simp] theorem isErrorReply_emptyMultiBulk : isErrorReply emptyMultiBulk = false := rfl

@[simp] theorem isErrorReply_unknownErr : isErrorReply unknownErr = true := rfl

end

end Traitor.Protocol
