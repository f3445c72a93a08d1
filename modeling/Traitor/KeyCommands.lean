import Traitor.Schedule
import Traitor.StringCommands

namespace Traitor.Database

open Lib.Effects Lib.Strconv Protocol

variable {σ : Type} (env : Env σ)

def execDel (args : List Slice) : Exec σ Reply := do
  let deleted ← removes (args.map text)
  if 0 < deleted then
    addAof (cmdLine3 "del" args)
    return .int deleted
  else return .int deleted

def countExisting : List Bytes → Exec σ Int
  | [] => return 0
  | key :: keys => do
      match ← getEntity env key with
      | none => countExisting keys
      | some _ => return 1 + (← countExisting keys)

def execExists (args : List Slice) : Exec σ Reply := return .int (← countExisting env (args.map text))

def Entity.typeName : Entity σ → String
  | .str _ => "string"
  | .list _ => "list"
  | .hash _ => "hash"
  | .set _ => "set"
  | .zset _ => "zset"

def execType : List Slice → Exec σ Reply
  | key :: _ => do
      match ← getEntity env (text key) with
      | none => return .status (bytes "none")
      | some entity => return .status (bytes entity.typeName)
  | [] => panics

def prepareRename : List Slice → List Bytes × List Bytes
  | src :: dest :: _ => ([text dest], [text src])
  | _ => ([], [])

def moveTTL (src dest : Bytes) : Option Int → Exec σ PUnit
  | none => return ⟨⟩
  | some expireTime => do
      persist src
      persist dest
      expire dest expireTime

def execRename : List Slice → Exec σ Reply
  | [src, dest] => do
      match ← getEntity env (text src) with
      | none => return errReply "no such key"
      | some entity =>
          let rawTTL ← getTTL (text src)
          putEntity (text dest) entity
          remove (text src)
          moveTTL (text src) (text dest) rawTTL
          addAof (cmdLine3 "rename" [src, dest])
          return .ok
  | _ => return errReply "ERR wrong number of arguments for 'rename' command"

def execRenameNx : List Slice → Exec σ Reply
  | src :: dest :: rest => do
      match ← getEntity env (text dest) with
      | some _ => return .int 0
      | none =>
          match ← getEntity env (text src) with
          | none => return errReply "no such key"
          | some entity =>
              let rawTTL ← getTTL (text src)
              let _ ← removes [text src, text dest]
              putEntity (text dest) entity
              moveTTL (text src) (text dest) rawTTL
              addAof (cmdLine3 "renamenx" (src :: dest :: rest))
              return .int 1
  | _ => panics

/-- The four commands that set an expiration, which differ in the instant that their
argument stands for. -/
def expireCommand (instant : Int → Int) : List Slice → Exec σ Reply
  | key :: rawTime :: _ => do
      match parseInt 64 (text rawTime) with
      | none => return notInteger
      | some n =>
          match ← getEntity env (text key) with
          | none => return .int 0
          | some _ =>
              expire (text key) (instant n)
              addAof (makeExpireCmd (text key) (instant n))
              return .int 1
  | _ => panics

def execExpire : List Slice → Exec σ Reply :=
  expireCommand env fun n => env.now + wrap64 (n * second)

def execExpireAt : List Slice → Exec σ Reply := expireCommand env unixTime

def execPExpire : List Slice → Exec σ Reply :=
  expireCommand env fun n => env.now + wrap64 (n * millisecond)

def execPExpireAt : List Slice → Exec σ Reply :=
  expireCommand env fun n => wrap64 (n * millisecond)

def ttlCommand (unit : Int) : List Slice → Exec σ Reply
  | key :: _ => do
      match ← getEntity env (text key) with
      | none => return .int (-2)
      | some _ =>
          match ← getTTL (text key) with
          | none => return .int (-1)
          | some expireTime => return .int ((Schedule.sub expireTime env.now).tdiv unit)
  | [] => panics

def execTTL : List Slice → Exec σ Reply := ttlCommand env second

def execPTTL : List Slice → Exec σ Reply := ttlCommand env millisecond

def execPersist : List Slice → Exec σ Reply
  | key :: rest => do
      match ← getEntity env (text key) with
      | none => return .int 0
      | some _ =>
          match ← getTTL (text key) with
          | none => return .int 0
          | some _ =>
              persist (text key)
              addAof (cmdLine3 "persist" (key :: rest))
              return .int 1
  | [] => panics

def execKeys : List Slice → Exec σ Reply
  | pattern :: _ => do
      match env.lib.compilePattern (text pattern) with
      | none => return errReply "ERR illegal wildcard"
      | some isMatch =>
          let keys := env.choices.order (← get).db.data.keys
          return .multiBulk ((keys.filter isMatch).map some)
  | [] => panics

end Traitor.Database
