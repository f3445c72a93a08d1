import Traitor.HashCommands
import Traitor.KeyCommands
import Traitor.SetCommands
import Traitor.SortedSetCommands

namespace Traitor.Database

open Lib.Effects Lib.Strconv Protocol

variable {σ : Type} [LinearOrder σ] [Inhabited σ] (env : Env σ)

def toTTLCmd (key : Bytes) : Exec σ CmdLine := do
  match ← getTTL key with
  | none => return cmdLine "PERSIST" [key]
  | some expireTime =>
      return cmdLine "PEXPIREAT" [key, formatInt (((unixNano expireTime).tdiv 1000).tdiv 1000)]

def hashToCmd (key : Bytes) (d : Dict HashValue) : CmdLine :=
  cmdLine3 "HMSET" (some key :: (env.choices.order d.keys).flatMap fun f => [some f, valueOf d f])

/-- There is no line for the other types. -/
def entityToCmd (key : Bytes) : Entity σ → Option CmdLine
  | .str s => some (cmdLine3 "SET" [some key, s])
  | .hash d => some (hashToCmd env key d)
  | _ => none

def rollbackGivenKeys : List Bytes → Exec σ (List CmdLine)
  | [] => return []
  | key :: keys => do
      match ← getEntity env key with
      | none => return cmdLine "DEL" [key] :: (← rollbackGivenKeys keys)
      | some entity =>
          match entityToCmd env key entity with
          | none => panics
          | some line =>
              let ttl ← toTTLCmd key
              return cmdLine "DEL" [key] :: line :: ttl :: (← rollbackGivenKeys keys)

def rollbackFirstKey : List Slice → Exec σ (List CmdLine)
  | key :: _ => rollbackGivenKeys env [text key]
  | [] => panics

/-- The line to delete a key that is not there, or else one line for each item. -/
def rollbackItems {α : Type} (view : Entity σ → Option α) (restore : α → Bytes → Option CmdLine)
    (key : Bytes) (items : List Bytes) : Exec σ (List CmdLine) := do
  match ← getAs env view key with
  | .error _ => return []
  | .ok none => return [cmdLine "DEL" [key]]
  | .ok (some a) =>
      match items.mapM (restore a) with
      | none => panics
      | some lines => return lines

def rollbackHashFields (key : Bytes) (fields : List Bytes) : Exec σ (List CmdLine) :=
  rollbackItems env Entity.asHash
    (fun d field => some
      (if (d.lookup field).isSome then cmdLine "HSET" [key, field, text (valueOf d field)]
      else cmdLine "HDEL" [key, field])) key fields

/-- The score of a member that is not there is read through nil. -/
def rollbackZSetFields (key : Bytes) (fields : List Bytes) : Exec σ (List CmdLine) :=
  rollbackItems env Entity.asSortedSet
    (fun z field => (z.get field).map fun score =>
      cmdLine "ZADD" [key, env.lib.formatFloat score, field]) key fields

def rollbackSetMembers (key : Bytes) (members : List Bytes) : Exec σ (List CmdLine) :=
  rollbackItems env Entity.asSet
    (fun s member => some
      (if member ∈ s then cmdLine "SADD" [key, member] else cmdLine "SREM" [key, member]))
    key members

def undoSetChange : List Slice → Exec σ (List CmdLine)
  | key :: members => rollbackSetMembers env (text key) (members.map text)
  | [] => panics

def undoMSet (args : List Slice) : Exec σ (List CmdLine) := rollbackGivenKeys env (prepareMSet args).1

def undoDel (args : List Slice) : Exec σ (List CmdLine) := rollbackGivenKeys env (args.map text)

def undoRename : List Slice → Exec σ (List CmdLine)
  | src :: dest :: _ => rollbackGivenKeys env [text src, text dest]
  | _ => panics

def undoExpire : List Slice → Exec σ (List CmdLine)
  | key :: _ => do return [← toTTLCmd (text key)]
  | [] => panics

/-- `HSET`, `HSETNX`, `HINCRBY` and `HINCRBYFLOAT` change one field. -/
def undoHSet : List Slice → Exec σ (List CmdLine)
  | key :: field :: _ => rollbackHashFields env (text key) [text field]
  | _ => panics

def undoHIncr : List Slice → Exec σ (List CmdLine) := undoHSet env

def undoHDel : List Slice → Exec σ (List CmdLine)
  | key :: fields => rollbackHashFields env (text key) (fields.map text)
  | [] => panics

def undoHMSet : List Slice → Exec σ (List CmdLine)
  | key :: rest => rollbackHashFields env (text key) ((fieldPairs rest).map fun p => text p.1)
  | [] => panics

def undoZAdd : List Slice → Exec σ (List CmdLine)
  | key :: rest => rollbackZSetFields env (text key) ((fieldPairs rest).map fun p => text p.2)
  | [] => panics

def undoZRem : List Slice → Exec σ (List CmdLine)
  | key :: fields => rollbackZSetFields env (text key) (fields.map text)
  | [] => panics

def undoZIncr : List Slice → Exec σ (List CmdLine)
  | key :: _ :: field :: _ => rollbackZSetFields env (text key) [text field]
  | _ => panics

def undoElement (key : Bytes) (index : Int → Option Int) (lines : Slice → List CmdLine) :
    Exec σ (List CmdLine) := do
  match ← getAsList env key with
  | .error _ => return []
  | .ok none => return []
  | .ok (some l) =>
      match index l.size with
      | none => return []
      | some i =>
          match l.get i with
          | none => panics
          | some element => return lines element

def undoLPop : List Slice → Exec σ (List CmdLine)
  | key :: _ =>
      undoElement env (text key) (fun size => if size = 0 then none else some 0) fun element =>
        [cmdLine3 "LPUSH" [key, element]]
  | [] => panics

def undoLPush : List Slice → Exec σ (List CmdLine)
  | key :: values => return values.map fun _ => cmdLine "LPOP" [text key]
  | [] => panics

def undoLSet : List Slice → Exec σ (List CmdLine)
  | key :: rawIndex :: _ =>
      match parseInt 64 (text rawIndex) with
      | none => return []
      | some index =>
          undoElement env (text key) (elementIndex index) fun element =>
            [cmdLine3 "LSET" [key, rawIndex, element]]
  | _ => panics

def lastIndex (size : Int) : Option Int := if size = 0 then none else some (size - 1)

def undoRPop : List Slice → Exec σ (List CmdLine)
  | key :: _ =>
      undoElement env (text key) lastIndex fun element => [cmdLine3 "RPUSH" [key, element]]
  | [] => panics

def undoRPopLPush : List Slice → Exec σ (List CmdLine)
  | source :: dest :: _ =>
      undoElement env (text source) lastIndex fun element =>
        [cmdLine3 "RPUSH" [source, element], cmdLine3 "LPOP" [dest]]
  | _ => panics

def undoRPush : List Slice → Exec σ (List CmdLine)
  | key :: values => return values.map fun _ => cmdLine "RPOP" [text key]
  | [] => panics

end Traitor.Database
