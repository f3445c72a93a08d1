import Traitor.Database

namespace Traitor.Database

open Lib.Effects Lib.Strconv Protocol

/-- The bits of a string of bytes, the lowest of each byte first. -/
abbrev BitMap := Bytes

namespace BitMap

def toByteSize (bitSize : Int) : Int :=
  if bitSize.tmod 8 = 0 then bitSize.tdiv 8 else bitSize.tdiv 8 + 1

/-- The bytes can always be allocated. -/
def grow (b : BitMap) (bitSize : Int) : BitMap :=
  b ++ List.replicate (toByteSize bitSize - b.length).toNat 0

def bit (byte : UInt8) (bitOffset : Nat) : Nat := byte.toNat / 2 ^ bitOffset % 2

/-- None is a shift or an index that panics. -/
def getBit (b : BitMap) (offset : Int) : Option Nat :=
  let byteIndex := offset.tdiv 8
  let bitOffset := offset.tmod 8
  if b.length ≤ byteIndex then some 0
  else if byteIndex < 0 ∨ bitOffset < 0 then none
  else (b[byteIndex.toNat]?).map (bit · bitOffset.toNat)

def writeBit (byte : UInt8) (bitOffset : Nat) (val : Nat) : UInt8 :=
  let mask := (2 ^ bitOffset).toUInt8
  if 0 < val then byte ||| mask else byte &&& ~~~mask

def setBit (b : BitMap) (offset : Int) (val : Nat) : Option BitMap :=
  let byteIndex := offset.tdiv 8
  let bitOffset := offset.tmod 8
  if bitOffset < 0 then none
  else
    let b := grow b (wrap64 (offset + 1))
    if byteIndex < 0 then none
    else (b[byteIndex.toNat]?).map fun byte =>
      b.set byteIndex.toNat (writeBit byte bitOffset.toNat val)

def bits (byte : UInt8) : List Nat := (List.range 8).map (bit byte)

/-- The offsets and bits from `begin` on. The end is looked at after each byte. -/
def forEachBit (begin end_ : Int) : List UInt8 → Int → List (Int × Nat)
  | [], _ => []
  | byte :: rest, byteIndex =>
      let start := if byteIndex = begin.tdiv 8 then (begin.tmod 8).toNat else 0
      let here := ((bits byte).drop start).mapIdx fun i v => (byteIndex * 8 + start + i, v)
      if 0 < end_ ∧ (byteIndex + 1) * 8 = end_ then here
      else here ++ forEachBit begin end_ rest (byteIndex + 1)

def bitsFrom (b : BitMap) (begin end_ : Int) : List (Int × Nat) :=
  forEachBit begin end_ (b.drop (begin.tdiv 8).toNat) (begin.tdiv 8)

def bytesFrom (b : BitMap) (begin end_ : Int) : List UInt8 :=
  let end_ := if end_ = 0 ∨ b.length < end_ then (b.length : Int) else end_
  (b.take end_.toNat).drop begin.toNat

end BitMap

/-- The slice positions of an inclusive range, and -1 twice for one out of bound. -/
def convertRange (start end_ size : Int) : Int × Int :=
  if start < -size then (-1, -1)
  else if 0 ≤ start ∧ size ≤ start then (-1, -1)
  else
    let start := if start < 0 then size + start else start
    if end_ < -size then (-1, -1)
    else
      let end_ := if end_ < 0 then size + end_ + 1 else if end_ < size then end_ + 1 else size
      if end_ < start then (-1, -1) else (start, end_)

inductive Policy
  | upsert
  | insert
  | update
deriving DecidableEq

def unlimitedTTL : Int := 0

def ttlArg (name : String) (ttl : Int) (arg : Slice) : Except Reply Int :=
  if ttl ≠ unlimitedTTL then .error .syntaxErr
  else
    match parseInt 64 (text arg) with
    | none => .error .syntaxErr
    | some n => if n ≤ 0 then .error (errReply ("ERR invalid expire time in " ++ name)) else .ok n

def setOptions (policy : Policy) (ttl : Int) : List Slice → Except Reply (Policy × Int)
  | [] => .ok (policy, ttl)
  | arg :: rest =>
      let name := toUpper (text arg)
      if name = bytes "NX" then
        if policy = .update then .error .syntaxErr else setOptions .insert ttl rest
      else if name = bytes "XX" then
        if policy = .insert then .error .syntaxErr else setOptions .update ttl rest
      else if name = bytes "EX" then
        match rest with
        | [] => .error .syntaxErr
        | n :: rest =>
            match ttlArg "set" ttl n with
            | .error e => .error e
            | .ok n => setOptions policy (wrap64 (n * 1000)) rest
      else if name = bytes "PX" then
        match rest with
        | [] => .error .syntaxErr
        | n :: rest =>
            match ttlArg "set" ttl n with
            | .error e => .error e
            | .ok n => setOptions policy n rest
      else .error .syntaxErr

section

variable {σ : Type} (env : Env σ)

def Entity.asString : Entity σ → Option Slice
  | .str s => some s
  | _ => none

/-- A key that is not there is the nil slice. -/
def getAsString (key : Bytes) : Exec σ (Except Reply Slice) := do
  match ← getAs env Entity.asString key with
  | .error e => return .error e
  | .ok s => return .ok s.join

def after (ttl : Int) : Int := env.now + wrap64 (ttl * millisecond)

def execGet : List Slice → Exec σ Reply
  | key :: _ => do
      match ← getAsString env (text key) with
      | .error e => return e
      | .ok none => return .nullBulk
      | .ok (some s) => return .bulk (some s)
  | [] => panics

/-- An option that is not known is skipped. -/
def getExOptions (key : Bytes) (ttl : Int) : List Slice → Exec σ (Except Reply Int)
  | [] => return .ok ttl
  | arg :: rest =>
      let name := toUpper (text arg)
      if name = bytes "EX" then
        match rest with
        | [] => return .error .syntaxErr
        | n :: rest =>
            match ttlArg "getex" ttl n with
            | .error e => return .error e
            | .ok n => getExOptions key (wrap64 (n * 1000)) rest
      else if name = bytes "PX" then
        match rest with
        | [] => return .error .syntaxErr
        | n :: rest =>
            match ttlArg "getex" ttl n with
            | .error e => return .error e
            | .ok n => getExOptions key n rest
      else if name = bytes "PERSIST" then
        if ttl ≠ unlimitedTTL then return .error .syntaxErr
        else do
          persist key
          getExOptions key ttl rest
      else getExOptions key ttl rest

def execGetEX : List Slice → Exec σ Reply
  | key :: options => do
      match ← getAsString env (text key) with
      | .error e => return e
      | .ok none => return .nullBulk
      | .ok (some s) =>
          match ← getExOptions (text key) unlimitedTTL options with
          | .error e => return e
          | .ok ttl =>
              if options = [] then return .bulk (some s)
              else if ttl ≠ unlimitedTTL then
                let expireTime := after env ttl
                expire (text key) expireTime
                addAof (makeExpireCmd (text key) expireTime)
                return .bulk (some s)
              else
                persist (text key)
                addAof (cmdLine3 "persist" [key])
                return .bulk (some s)
  | [] => panics

def putByPolicy (policy : Policy) (key : Bytes) (entity : Entity σ) : Exec σ Int :=
  match policy with
  | .upsert => do
      putEntity key entity
      return 1
  | .insert => putIfAbsent key entity
  | .update => putIfExists key entity

def execSet : List Slice → Exec σ Reply
  | key :: value :: options => do
      match setOptions .upsert unlimitedTTL options with
      | .error e => return e
      | .ok (policy, ttl) =>
          let result ← putByPolicy policy (text key) (.str value)
          if 0 < result then
            if ttl ≠ unlimitedTTL then
              let expireTime := after env ttl
              expire (text key) expireTime
              addAof (cmdLine3 "SET" [key, value])
              addAof (makeExpireCmd (text key) expireTime)
              return .ok
            else
              persist (text key)
              addAof (cmdLine3 "set" (key :: value :: options))
              return .ok
          else return .nullBulk
  | _ => panics

def execSetNX : List Slice → Exec σ Reply
  | key :: value :: rest => do
      let result ← putIfAbsent (text key) (.str value)
      addAof (cmdLine3 "setnx" (key :: value :: rest))
      return .int result
  | _ => panics

/-- `SETEX` and `PSETEX`, which differ in the unit of the time. -/
def setWithTTL (unit : Int) : List Slice → Exec σ Reply
  | key :: ttl :: value :: rest => do
      match parseInt 64 (text ttl) with
      | none => return .syntaxErr
      | some n =>
          if n ≤ 0 then return errReply "ERR invalid expire time in setex"
          else
            putEntity (text key) (.str value)
            let expireTime := after env (wrap64 (n * unit))
            expire (text key) expireTime
            addAof (cmdLine3 "setex" (key :: ttl :: value :: rest))
            addAof (makeExpireCmd (text key) expireTime)
            return .ok
  | _ => panics

def execSetEX : List Slice → Exec σ Reply := setWithTTL env 1000

def execPSetEX : List Slice → Exec σ Reply := setWithTTL env 1

/-- The keys and values of the arguments; one that is left over is not looked at. -/
def pairs : List Slice → List (Slice × Slice)
  | key :: value :: rest => (key, value) :: pairs rest
  | _ => []

def prepareMSet (args : List Slice) : List Bytes × List Bytes :=
  ((pairs args).map fun p => text p.1, [])

def putPairs (l : List (Slice × Slice)) : Exec σ PUnit :=
  l.forM fun p => putEntity (text p.1) (.str p.2)

def execMSet (args : List Slice) : Exec σ Reply := do
  if args.length % 2 ≠ 0 then return .syntaxErr
  else
    putPairs (pairs args)
    addAof (cmdLine3 "mset" args)
    return .ok

def readStrings : List Slice → Exec σ (List Slice)
  | [] => return []
  | key :: keys => do
      match ← getAsString env (text key) with
      | .error _ => return none :: (← readStrings keys)
      | .ok s => return s :: (← readStrings keys)

def execMGet (args : List Slice) : Exec σ Reply := return .multiBulk (← readStrings env args)

/-- Whether one of the keys is there; the keys after it are not looked at. -/
def anyExists : List Bytes → Exec σ Bool
  | [] => return false
  | key :: keys => do
      match ← getEntity env key with
      | some _ => return true
      | none => anyExists keys

def execMSetNX (args : List Slice) : Exec σ Reply := do
  if args.length % 2 ≠ 0 then return .syntaxErr
  else if ← anyExists env ((pairs args).map fun p => text p.1) then return .int 0
  else
    putPairs (pairs args)
    addAof (cmdLine3 "msetnx" args)
    return .int 1

def execGetSet : List Slice → Exec σ Reply
  | key :: value :: rest => do
      match ← getAsString env (text key) with
      | .error e => return e
      | .ok old =>
          putEntity (text key) (.str value)
          persist (text key)
          addAof (cmdLine3 "set" (key :: value :: rest))
          match old with
          | none => return .nullBulk
          | some s => return .bulk (some s)
  | _ => panics

def execGetDel : List Slice → Exec σ Reply
  | key :: rest => do
      match ← getAsString env (text key) with
      | .error e => return e
      | .ok none => return .nullBulk
      | .ok (some s) =>
          remove (text key)
          addAof (cmdLine3 "del" (key :: rest))
          return .bulk (some s)
  | [] => panics

/-- The counters: what is stored for a key that is not there is the text `initial`. -/
def addInteger (name : String) (args : List Slice) (key : Bytes) (delta : Int) (initial : Slice)
    (first : Int) : Exec σ Reply := do
  match ← getAsString env key with
  | .error e => return e
  | .ok none =>
      putEntity key (.str initial)
      addAof (cmdLine3 name args)
      return .int first
  | .ok (some s) =>
      match parseInt 64 s with
      | none => return notInteger
      | some val =>
          putEntity key (.str (some (formatInt (wrap64 (val + delta)))))
          addAof (cmdLine3 name args)
          return .int (wrap64 (val + delta))

def execIncr : List Slice → Exec σ Reply
  | key :: rest => addInteger env "incr" (key :: rest) (text key) 1 (some (bytes "1")) 1
  | [] => panics

def execIncrBy : List Slice → Exec σ Reply
  | key :: rawDelta :: rest =>
      match parseInt 64 (text rawDelta) with
      | none => return notInteger
      | some delta =>
          addInteger env "incrby" (key :: rawDelta :: rest) (text key) delta rawDelta delta
  | _ => panics

def notFloat : Reply := errReply "ERR value is not a valid float"

def execIncrByFloat : List Slice → Exec σ Reply
  | key :: rawDelta :: rest => do
      if ¬ env.lib.isDecimal (text rawDelta) then return notFloat
      else
        match ← getAsString env (text key) with
        | .error e => return e
        | .ok none =>
            putEntity (text key) (.str rawDelta)
            addAof (cmdLine3 "incrbyfloat" (key :: rawDelta :: rest))
            return .bulk rawDelta
        | .ok (some s) =>
            if ¬ env.lib.isDecimal s then return notFloat
            else
              let result := env.lib.addDecimal s (text rawDelta)
              putEntity (text key) (.str (some result))
              addAof (cmdLine3 "incrbyfloat" (key :: rawDelta :: rest))
              return .bulk (some result)
  | _ => panics

def execDecr : List Slice → Exec σ Reply
  | key :: rest => addInteger env "decr" (key :: rest) (text key) (-1) (some (bytes "-1")) (-1)
  | [] => panics

def execDecrBy : List Slice → Exec σ Reply
  | key :: rawDelta :: rest =>
      match parseInt 64 (text rawDelta) with
      | none => return notInteger
      | some delta =>
          addInteger env "decrby" (key :: rawDelta :: rest) (text key) (-delta)
            (some (formatInt (wrap64 (-delta)))) (wrap64 (-delta))
  | _ => panics

def execStrLen : List Slice → Exec σ Reply
  | key :: _ => do
      match ← getAsString env (text key) with
      | .error e => return e
      | .ok s => return .int (text s).length
  | [] => panics

/-- Appending nothing to the nil slice leaves it nil. -/
def append (s : Slice) (l : Bytes) : Slice := if s = none ∧ l = [] then none else some (text s ++ l)

def execAppend : List Slice → Exec σ Reply
  | key :: value :: rest => do
      match ← getAsString env (text key) with
      | .error e => return e
      | .ok s =>
          let s := append s (text value)
          putEntity (text key) (.str s)
          addAof (cmdLine3 "append" (key :: value :: rest))
          return .int (text s).length
  | _ => panics

def overwrite (s : Bytes) (offset : Nat) (value : Bytes) : Bytes :=
  s.take offset ++ value ++ s.drop (offset + value.length)

def execSetRange : List Slice → Exec σ Reply
  | key :: rawOffset :: value :: rest => do
      match parseInt 64 (text rawOffset) with
      | none => return .standardErr (env.lib.numError (text rawOffset))
      | some offset =>
          match ← getAsString env (text key) with
          | .error e => return e
          | .ok s =>
              let s := append s (List.replicate (offset - (text s).length).toNat 0)
              -- the first byte goes to an index below zero
              if offset < 0 ∧ text value ≠ [] then panics
              else
                let s := if text value = [] then s
                  else some (overwrite (text s) offset.toNat (text value))
                putEntity (text key) (.str s)
                addAof (cmdLine3 "setRange" (key :: rawOffset :: value :: rest))
                return .int (text s).length
  | _ => panics

def execGetRange : List Slice → Exec σ Reply
  | key :: rawStart :: rawEnd :: _ => do
      match parseInt 64 (text rawStart) with
      | none => return notInteger
      | some start =>
          match parseInt 64 (text rawEnd) with
          | none => return notInteger
          | some end_ =>
              match ← getAsString env (text key) with
              | .error e => return e
              | .ok none => return .nullBulk
              | .ok (some s) =>
                  let (beg, end_) := convertRange start end_ s.length
                  if beg < 0 then return .nullBulk
                  else return .bulk (some ((s.take end_.toNat).drop beg.toNat))
  | _ => panics

def bitOffsetErr : Reply := errReply "ERR bit offset is not an integer or out of range"

def bitErr : Reply := errReply "ERR bit is not an integer or out of range"

def parseBit (arg : Slice) : Option Nat :=
  if text arg = bytes "1" then some 1 else if text arg = bytes "0" then some 0 else none

def execSetBit : List Slice → Exec σ Reply
  | key :: rawOffset :: rawBit :: _ => do
      match parseInt 64 (text rawOffset) with
      | none => return bitOffsetErr
      | some offset =>
          match parseBit rawBit with
          | none => return bitErr
          | some v =>
              match ← getAsString env (text key) with
              | .error e => return e
              | .ok s =>
                  match BitMap.getBit (text s) offset, BitMap.setBit (text s) offset v with
                  | some former, some s =>
                      putEntity (text key) (.str (some s))
                      return .int former
                  | _, _ => panics
  | _ => panics

def execGetBit : List Slice → Exec σ Reply
  | key :: rawOffset :: _ => do
      match parseInt 64 (text rawOffset) with
      | none => return bitOffsetErr
      | some offset =>
          match ← getAsString env (text key) with
          | .error e => return e
          | .ok none => return .int 0
          | .ok (some s) =>
              match BitMap.getBit s offset with
              | none => panics
              | some v => return .int v
  | _ => panics

def byteMode : List Slice → Option Bool
  | _ :: _ :: mode :: _ =>
      if toLower (text mode) = bytes "bit" then some false
      else if toLower (text mode) = bytes "byte" then some true
      else none
  | _ => some true

def bitRange (size : Int) : List Slice → Exec σ (Except Reply (Option (Int × Int)))
  | [] => return .ok (some (0, 0))
  | rawStart :: rest =>
      match parseInt 64 (text rawStart) with
      | none => return .error notInteger
      | some start =>
          match rest with
          | [] => panics
          | rawEnd :: _ =>
              match parseInt 64 (text rawEnd) with
              | none => return .error notInteger
              | some end_ =>
                  let r := convertRange start end_ size
                  return .ok (if r.1 < 0 then none else some r)

def bitSize (s : Bytes) (bytewise : Bool) : Int := if bytewise then s.length else s.length * 8

def execBitCount : List Slice → Exec σ Reply
  | key :: range => do
      match ← getAsString env (text key) with
      | .error e => return e
      | .ok none => return .int 0
      | .ok (some s) =>
          match byteMode range with
          | none => return errReply "ERR syntax error"
          | some bytewise =>
              match ← bitRange (bitSize s bytewise) range with
              | .error e => return e
              | .ok none => return .int 0
              | .ok (some (beg, end_)) =>
                  if bytewise then
                    return .int ((BitMap.bytesFrom s beg end_).flatMap BitMap.bits).sum
                  else return .int ((BitMap.bitsFrom s beg end_).map Prod.snd).sum
  | [] => panics

def execBitPos : List Slice → Exec σ Reply
  | key :: rawBit :: range => do
      match ← getAsString env (text key) with
      | .error e => return e
      | .ok none => return .int (-1)
      | .ok (some s) =>
          match parseBit rawBit with
          | none => return bitErr
          | some v =>
              match byteMode range with
              | none => return errReply "ERR syntax error"
              | some bytewise =>
                  match ← bitRange (bitSize s bytewise) range with
                  | .error e => return e
                  | .ok none => return .int 0
                  | .ok (some (beg, end_)) =>
                      let bits :=
                        if bytewise then BitMap.bitsFrom s (beg * 8) (end_ * 8)
                        else BitMap.bitsFrom s beg end_
                      return .int ((bits.find? (·.2 = v)).elim (-1) Prod.fst)
  | _ => panics

end

end Traitor.Database
