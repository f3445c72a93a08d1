import Traitor.Undo

namespace Traitor.Database

open Lib.Effects Lib.Strconv Protocol

inductive CommandName
  | set | setNx | setEX | pSetEX | mset | mget | mSetNX | get | getEX | getSet | getDel | incr
  | incrBy | incrByFloat | decr | decrBy | strLen | append | setRange | getRange | setBit
  | getBit | bitCount | bitPos | del | expire | expireAt | pExpire | pExpireAt | ttl | pttl
  | persist | exists_ | type | rename | renameNx | keys | lPush | lPushX | rPush | rPushX | lPop
  | rPop | rPopLPush | lRem | lLen | lIndex | lSet | lRange | hSet | hSetNX | hExists | hDel
  | hLen | hStrlen | hMSet | hMGet | hGet | hKeys | hVals | hGetAll | hIncrBy | hIncrByFloat
  | hRandField | sAdd | sIsMember | sRem | sPop | sCard | sMembers | sInter | sInterStore
  | sUnion | sUnionStore | sDiff | sDiffStore | sRandMember | zAdd | zScore | zIncrBy | zRank
  | zCount | zRevRank | zCard | zRange | zRangeByScore | zRevRange | zRevRangeByScore | zPopMin
  | zRem | zRemRangeByScore | zRemRangeByRank | ping
deriving DecidableEq

namespace CommandName

def all : List CommandName :=
  [.set, .setNx, .setEX, .pSetEX, .mset, .mget, .mSetNX, .get, .getEX, .getSet, .getDel, .incr,
    .incrBy, .incrByFloat, .decr, .decrBy, .strLen, .append, .setRange, .getRange, .setBit,
    .getBit, .bitCount, .bitPos, .del, .expire, .expireAt, .pExpire, .pExpireAt, .ttl, .pttl,
    .persist, .exists_, .type, .rename, .renameNx, .keys, .lPush, .lPushX, .rPush, .rPushX,
    .lPop, .rPop, .rPopLPush, .lRem, .lLen, .lIndex, .lSet, .lRange, .hSet, .hSetNX, .hExists,
    .hDel, .hLen, .hStrlen, .hMSet, .hMGet, .hGet, .hKeys, .hVals, .hGetAll, .hIncrBy,
    .hIncrByFloat, .hRandField, .sAdd, .sIsMember, .sRem, .sPop, .sCard, .sMembers, .sInter,
    .sInterStore, .sUnion, .sUnionStore, .sDiff, .sDiffStore, .sRandMember, .zAdd, .zScore,
    .zIncrBy, .zRank, .zCount, .zRevRank, .zCard, .zRange, .zRangeByScore, .zRevRange,
    .zRevRangeByScore, .zPopMin, .zRem, .zRemRangeByScore, .zRemRangeByRank, .ping]

def name : CommandName → String
  | .set => "set"
  | .setNx => "setnx"
  | .setEX => "setex"
  | .pSetEX => "psetex"
  | .mset => "mset"
  | .mget => "mget"
  | .mSetNX => "msetnx"
  | .get => "get"
  | .getEX => "getex"
  | .getSet => "getset"
  | .getDel => "getdel"
  | .incr => "incr"
  | .incrBy => "incrby"
  | .incrByFloat => "incrbyfloat"
  | .decr => "decr"
  | .decrBy => "decrby"
  | .strLen => "strlen"
  | .append => "append"
  | .setRange => "setrange"
  | .getRange => "getrange"
  | .setBit => "setbit"
  | .getBit => "getbit"
  | .bitCount => "bitcount"
  | .bitPos => "bitpos"
  | .del => "del"
  | .expire => "expire"
  | .expireAt => "expireat"
  | .pExpire => "pexpire"
  | .pExpireAt => "pexpireat"
  | .ttl => "ttl"
  | .pttl => "pttl"
  | .persist => "persist"
  | .exists_ => "exists"
  | .type => "type"
  | .rename => "rename"
  | .renameNx => "renamenx"
  | .keys => "keys"
  | .lPush => "lpush"
  | .lPushX => "lpushx"
  | .rPush => "rpush"
  | .rPushX => "rpushx"
  | .lPop => "lpop"
  | .rPop => "rpop"
  | .rPopLPush => "rpoplpush"
  | .lRem => "lrem"
  | .lLen => "llen"
  | .lIndex => "lindex"
  | .lSet => "lset"
  | .lRange => "lrange"
  | .hSet => "hset"
  | .hSetNX => "hsetnx"
  | .hExists => "hexists"
  | .hDel => "hdel"
  | .hLen => "hlen"
  | .hStrlen => "hstrlen"
  | .hMSet => "hmset"
  | .hMGet => "hmget"
  | .hGet => "hget"
  | .hKeys => "hkeys"
  | .hVals => "hvals"
  | .hGetAll => "hgetall"
  | .hIncrBy => "hincrby"
  | .hIncrByFloat => "hincrbyfloat"
  | .hRandField => "hrandfield"
  | .sAdd => "sadd"
  | .sIsMember => "sismember"
  | .sRem => "srem"
  | .sPop => "spop"
  | .sCard => "scard"
  | .sMembers => "smembers"
  | .sInter => "sinter"
  | .sInterStore => "sinterstore"
  | .sUnion => "sunion"
  | .sUnionStore => "sunionstore"
  | .sDiff => "sdiff"
  | .sDiffStore => "sdiffstore"
  | .sRandMember => "srandmember"
  | .zAdd => "zadd"
  | .zScore => "zscore"
  | .zIncrBy => "zincrby"
  | .zRank => "zrank"
  | .zCount => "zcount"
  | .zRevRank => "zrevrank"
  | .zCard => "zcard"
  | .zRange => "zrange"
  | .zRangeByScore => "zrangebyscore"
  | .zRevRange => "zrevrange"
  | .zRevRangeByScore => "zrevrangebyscore"
  | .zPopMin => "zpopmin"
  | .zRem => "zrem"
  | .zRemRangeByScore => "zremrangebyscore"
  | .zRemRangeByRank => "zremrangebyrank"
  | .ping => "ping"

end CommandName

inductive Flag
  | write
  | readOnly
deriving DecidableEq

structure Command (σ : Type) where
  executor : List Slice → Exec σ Reply
  prepare : List Slice → List Bytes × List Bytes
  undo : Option (List Slice → Exec σ (List CmdLine))
  arity : Int
  flags : Flag

def readFirstKey (args : List Slice) : List Bytes × List Bytes := ([], (args.take 1).map text)

def writeFirstKey (args : List Slice) : List Bytes × List Bytes := ((args.take 1).map text, [])

def writeAllKeys (args : List Slice) : List Bytes × List Bytes := (args.map text, [])

def readAllKeys (args : List Slice) : List Bytes × List Bytes := ([], args.map text)

def prepareMGet (args : List Slice) : List Bytes × List Bytes := ([], args.map text)

def noPrepare (_ : List Slice) : List Bytes × List Bytes := ([], [])

section

variable {σ : Type} [LinearOrder σ] [Inhabited σ] (env : Env σ)

def ping : List Slice → Exec σ Reply
  | [] => return .pong
  | [arg] => return .status (text arg)
  | _ => return errReply "ERR wrong number of arguments for 'ping' command"

/-- The command that is registered last under a name. -/
def command : CommandName → Command σ
  | .set => ⟨execSet env, writeFirstKey, some (rollbackFirstKey env), -3, .write⟩
  | .setNx => ⟨execSetNX, writeFirstKey, some (rollbackFirstKey env), 3, .write⟩
  | .setEX => ⟨execSetEX env, writeFirstKey, some (rollbackFirstKey env), 4, .write⟩
  | .pSetEX => ⟨execPSetEX env, writeFirstKey, some (rollbackFirstKey env), 4, .write⟩
  | .mset => ⟨execMSet, prepareMSet, some (undoMSet env), -3, .write⟩
  | .mget => ⟨execMGet env, prepareMGet, none, -2, .readOnly⟩
  | .mSetNX => ⟨execMSetNX env, prepareMSet, some (undoMSet env), -3, .write⟩
  | .get => ⟨execGet env, readFirstKey, none, 2, .readOnly⟩
  | .getEX => ⟨execGetEX env, writeFirstKey, some (rollbackFirstKey env), -2, .readOnly⟩
  | .getSet => ⟨execGetSet env, writeFirstKey, some (rollbackFirstKey env), 3, .write⟩
  | .getDel => ⟨execGetDel env, writeFirstKey, some (rollbackFirstKey env), 2, .write⟩
  | .incr => ⟨execIncr env, writeFirstKey, some (rollbackFirstKey env), 2, .write⟩
  | .incrBy => ⟨execIncrBy env, writeFirstKey, some (rollbackFirstKey env), 3, .write⟩
  | .incrByFloat => ⟨execIncrByFloat env, writeFirstKey, some (rollbackFirstKey env), 3, .write⟩
  | .decr => ⟨execDecr env, writeFirstKey, some (rollbackFirstKey env), 2, .write⟩
  | .decrBy => ⟨execDecrBy env, writeFirstKey, some (rollbackFirstKey env), 3, .write⟩
  | .strLen => ⟨execStrLen env, readFirstKey, none, 2, .readOnly⟩
  | .append => ⟨execAppend env, writeFirstKey, some (rollbackFirstKey env), 3, .write⟩
  | .setRange => ⟨execSetRange env, writeFirstKey, some (rollbackFirstKey env), 4, .write⟩
  | .getRange => ⟨execGetRange env, readFirstKey, none, 4, .readOnly⟩
  | .setBit => ⟨execSetBit env, writeFirstKey, some (rollbackFirstKey env), 4, .write⟩
  | .getBit => ⟨execGetBit env, readFirstKey, none, 3, .readOnly⟩
  | .bitCount => ⟨execBitCount env, readFirstKey, none, -2, .readOnly⟩
  | .bitPos => ⟨execBitPos env, readFirstKey, none, -3, .readOnly⟩
  | .del => ⟨execDel, writeAllKeys, some (undoDel env), -2, .write⟩
  | .expire => ⟨execExpire env, writeFirstKey, some undoExpire, 3, .write⟩
  | .expireAt => ⟨execExpireAt env, writeFirstKey, some undoExpire, 3, .write⟩
  | .pExpire => ⟨execPExpire env, writeFirstKey, some undoExpire, 3, .write⟩
  | .pExpireAt => ⟨execPExpireAt env, writeFirstKey, some undoExpire, 3, .write⟩
  | .ttl => ⟨execTTL env, readFirstKey, none, 2, .readOnly⟩
  | .pttl => ⟨execPTTL env, readFirstKey, none, 2, .readOnly⟩
  | .persist => ⟨execPersist env, writeFirstKey, some undoExpire, 2, .write⟩
  | .exists_ => ⟨execExists env, readAllKeys, none, -2, .readOnly⟩
  | .type => ⟨execType env, readFirstKey, none, 2, .readOnly⟩
  | .rename => ⟨execRename env, prepareRename, some (undoRename env), 3, .readOnly⟩
  | .renameNx => ⟨execRenameNx env, prepareRename, some (undoRename env), 3, .readOnly⟩
  | .keys => ⟨execKeys env, noPrepare, none, 2, .readOnly⟩
  | .lPush => ⟨execLPush env, writeFirstKey, some undoLPush, -3, .write⟩
  | .lPushX => ⟨execLPushX env, writeFirstKey, some undoLPush, -3, .write⟩
  | .rPush => ⟨execRPush env, writeFirstKey, some undoRPush, -3, .write⟩
  | .rPushX => ⟨execRPushX env, writeFirstKey, some undoRPush, -3, .write⟩
  | .lPop => ⟨execLPop env, writeFirstKey, some (undoLPop env), 2, .write⟩
  | .rPop => ⟨execRPop env, writeFirstKey, some (undoRPop env), 2, .write⟩
  | .rPopLPush => ⟨execRPopLPush env, prepareRPopLPush, some (undoRPopLPush env), 3, .write⟩
  | .lRem => ⟨execLRem env, writeFirstKey, some (rollbackFirstKey env), 4, .write⟩
  | .lLen => ⟨execLLen env, readFirstKey, none, 2, .readOnly⟩
  | .lIndex => ⟨execLIndex env, readFirstKey, none, 3, .readOnly⟩
  | .lSet => ⟨execLSet env, writeFirstKey, some (undoLSet env), 4, .write⟩
  | .lRange => ⟨execLRange env, readFirstKey, none, 4, .readOnly⟩
  | .hSet => ⟨execHSet env, writeFirstKey, some (undoHSet env), 4, .write⟩
  | .hSetNX => ⟨execHSetNX env, writeFirstKey, some (undoHSet env), 4, .write⟩
  | .hExists => ⟨execHExists env, readFirstKey, none, 3, .readOnly⟩
  | .hDel => ⟨execHDel env, writeFirstKey, some (undoHDel env), -3, .write⟩
  | .hLen => ⟨execHLen env, readFirstKey, none, 2, .readOnly⟩
  | .hStrlen => ⟨execHStrLen env, readFirstKey, none, 3, .readOnly⟩
  | .hMSet => ⟨execHMSet env, writeFirstKey, some (undoHMSet env), -4, .write⟩
  | .hMGet => ⟨execHMGet env, readFirstKey, none, -3, .readOnly⟩
  | .hGet => ⟨execHGet env, readFirstKey, none, -3, .readOnly⟩
  | .hKeys => ⟨execHKeys env, readFirstKey, none, 2, .readOnly⟩
  | .hVals => ⟨execHVals env, readFirstKey, none, 2, .readOnly⟩
  | .hGetAll => ⟨execHGetAll env, readFirstKey, none, 2, .readOnly⟩
  | .hIncrBy => ⟨execHIncrBy env, writeFirstKey, some (undoHIncr env), 4, .write⟩
  | .hIncrByFloat => ⟨execHIncrByFloat env, writeFirstKey, some (undoHIncr env), 4, .write⟩
  | .hRandField => ⟨execHRandField env, readFirstKey, none, -2, .readOnly⟩
  | .sAdd => ⟨execSAdd env, writeFirstKey, some (undoSetChange env), -3, .write⟩
  | .sIsMember => ⟨execSIsMember env, readFirstKey, none, 3, .readOnly⟩
  | .sRem => ⟨execSRem env, writeFirstKey, some (undoSetChange env), -3, .write⟩
  | .sPop => ⟨execSPop env, writeFirstKey, some (undoSetChange env), -2, .write⟩
  | .sCard => ⟨execSCard env, readFirstKey, none, 2, .readOnly⟩
  | .sMembers => ⟨execSMembers env, readFirstKey, none, 2, .readOnly⟩
  | .sInter => ⟨execSInter env, prepareSetCalculate, none, -2, .readOnly⟩
  | .sInterStore => ⟨execSInterStore env, prepareSetCalculateStore, some (rollbackFirstKey env), -3, .write⟩
  | .sUnion => ⟨execSUnion env, prepareSetCalculate, none, -2, .readOnly⟩
  | .sUnionStore => ⟨execSUnionStore env, prepareSetCalculateStore, some (rollbackFirstKey env), -3, .write⟩
  | .sDiff => ⟨execSDiff env, prepareSetCalculate, none, -2, .readOnly⟩
  | .sDiffStore => ⟨execSDiffStore env, prepareSetCalculateStore, some (rollbackFirstKey env), -3, .write⟩
  | .sRandMember => ⟨execSRandMember env, readFirstKey, none, -2, .readOnly⟩
  | .zAdd => ⟨execZAdd env, writeFirstKey, some (undoZAdd env), -4, .write⟩
  | .zScore => ⟨execZScore env, readFirstKey, none, 3, .readOnly⟩
  | .zIncrBy => ⟨execZIncrBy env, writeFirstKey, some (undoZIncr env), 4, .write⟩
  | .zRank => ⟨execZRank env, readFirstKey, none, 3, .readOnly⟩
  | .zCount => ⟨execZCount env, readFirstKey, none, 4, .readOnly⟩
  | .zRevRank => ⟨execZRevRank env, readFirstKey, none, 3, .readOnly⟩
  | .zCard => ⟨execZCard env, readFirstKey, none, 2, .readOnly⟩
  | .zRange => ⟨execZRange env, readFirstKey, none, -4, .readOnly⟩
  | .zRangeByScore => ⟨execZRangeByScore env, readFirstKey, none, -4, .readOnly⟩
  | .zRevRange => ⟨execZRevRange env, readFirstKey, none, -4, .readOnly⟩
  | .zRevRangeByScore => ⟨execZRevRangeByScore env, readFirstKey, none, -4, .readOnly⟩
  | .zPopMin => ⟨execZPopMin env, writeFirstKey, some (rollbackFirstKey env), -2, .write⟩
  | .zRem => ⟨execZRem env, writeFirstKey, some (undoZRem env), -3, .write⟩
  | .zRemRangeByScore => ⟨execZRemRangeByScore env, writeFirstKey, some (rollbackFirstKey env), 4, .write⟩
  | .zRemRangeByRank => ⟨execZRemRangeByRank env, writeFirstKey, some (rollbackFirstKey env), 4, .write⟩
  | .ping => ⟨ping, noPrepare, none, -1, .readOnly⟩

def cmdTable (cmdName : Bytes) : Option CommandName :=
  CommandName.all.find? fun c => bytes c.name = cmdName

theorem mem_all (c : CommandName) : c ∈ CommandName.all := by
  cases c <;> decide

/-- No two commands have one name. -/
theorem cmdTable_name (c : CommandName) : cmdTable (toLower (bytes c.name)) = some c := by
  have hall : ∀ c ∈ CommandName.all, cmdTable (toLower (bytes c.name)) = some c := by decide +kernel
  exact hall c (mem_all c)

def validateArity (arity : Int) (cmdArgs : CmdLine) : Bool :=
  if 0 ≤ arity then cmdArgs.length = arity else -arity ≤ cmdArgs.length

def addVersion (keys : List Bytes) : Exec σ PUnit :=
  keys.forM fun key => modifyDB fun db =>
    { db with versionMap := Function.update db.versionMap key (db.versionMap key + 1) }

def findCommand : CmdLine → Exec σ (Except Reply (CommandName × List Slice))
  | [] => panics
  | name :: args =>
      let cmdName := toLower (text name)
      match cmdTable cmdName with
      | none =>
          return .error (.standardErr (bytes "ERR unknown command '" ++ cmdName ++ bytes "'"))
      | some c =>
          if validateArity (command env c).arity (name :: args) then return .ok (c, args)
          else return .error (.argNumErr cmdName)

def execNormalCommand (line : CmdLine) : Exec σ Reply := do
  match ← findCommand env line with
  | .error e => return e
  | .ok (c, args) =>
      addVersion ((command env c).prepare args).1
      (command env c).executor args

/-- For a line whose keys are locked already. -/
def execWithLock (line : CmdLine) : Exec σ Reply := do
  match ← findCommand env line with
  | .error e => return e
  | .ok (c, args) => (command env c).executor args

/-- A panic is answered too. -/
def exec (line : CmdLine) (w : World σ) : Reply × World σ :=
  ((value (execNormalCommand env line) w).getD .unknownErr, final (execNormalCommand env line) w)

end

end Traitor.Database
