import Traitor.Database

namespace Traitor.Database

open Lib.Effects Lib.Strconv Protocol

variable {σ : Type} (env : Env σ)

def Entity.asHash : Entity σ → Option (Dict HashValue)
  | .hash d => some d
  | _ => none

def getAsDict (key : Bytes) : Exec σ (Except Reply (Option (Dict HashValue))) :=
  getAs env Entity.asHash key

abbrev setDict (key : Bytes) (d : Dict HashValue) : Exec σ PUnit := putEntity key (.hash d)

def getOrInitDict : Bytes → Exec σ (Except Reply (Dict HashValue)) :=
  getOrInit env Entity.asHash .hash ∅

def putResult (d : Dict HashValue) (field : Bytes) : Int :=
  if (d.lookup field).isSome then 0 else 1

def execHSet : List Slice → Exec σ Reply
  | key :: field :: value :: rest => do
      match ← getOrInitDict env (text key) with
      | .error e => return e
      | .ok d =>
          setDict (text key) (d.insert (text field) (.string (text value)))
          addAof (cmdLine3 "hset" (key :: field :: value :: rest))
          return .int (putResult d (text field))
  | _ => panics

def execHSetNX : List Slice → Exec σ Reply
  | key :: field :: value :: rest => do
      match ← getOrInitDict env (text key) with
      | .error e => return e
      | .ok d =>
          if (d.lookup (text field)).isSome then return .int 0
          else
            setDict (text key) (d.insert (text field) (.slice value))
            addAof (cmdLine3 "hsetnx" (key :: field :: value :: rest))
            return .int 1
  | _ => panics

def execHGet : List Slice → Exec σ Reply
  | key :: field :: _ => do
      match ← getAsDict env (text key) with
      | .error e => return e
      | .ok none => return .nullBulk
      | .ok (some d) =>
          match d.lookup (text field) with
          | none => return .nullBulk
          | some value => return .bulk value.bytes
  | _ => panics

def execHExists : List Slice → Exec σ Reply
  | key :: field :: _ => do
      match ← getAsDict env (text key) with
      | .error e => return e
      | .ok none => return .int 0
      | .ok (some d) => return .int (if (d.lookup (text field)).isSome then 1 else 0)
  | _ => panics

def removeFields (d : Dict HashValue) : List Bytes → Dict HashValue × Int
  | [] => (d, 0)
  | field :: fields =>
      let (d', deleted) := removeFields (d.erase field) fields
      (d', (if (d.lookup field).isSome then 1 else 0) + deleted)

def execHDel : List Slice → Exec σ Reply
  | key :: fields => do
      match ← getAsDict env (text key) with
      | .error e => return e
      | .ok none => return .int 0
      | .ok (some d) =>
          let (d, deleted) := removeFields d (fields.map text)
          setDict (text key) d
          if d.keys.card = 0 then remove (text key)
          if 0 < deleted then addAof (cmdLine3 "hdel" (key :: fields))
          return .int deleted
  | [] => panics

def execHLen : List Slice → Exec σ Reply
  | key :: _ => do
      match ← getAsDict env (text key) with
      | .error e => return e
      | .ok none => return .int 0
      | .ok (some d) => return .int d.keys.card
  | [] => panics

def execHStrLen : List Slice → Exec σ Reply
  | key :: field :: _ => do
      match ← getAsDict env (text key) with
      | .error e => return e
      | .ok none => return .int 0
      | .ok (some d) =>
          match d.lookup (text field) with
          | none => return .int 0
          | some value => return .int (text value.bytes).length
  | _ => panics

def fieldPairs : List Slice → List (Slice × Slice)
  | field :: value :: rest => (field, value) :: fieldPairs rest
  | _ => []

def putFields (d : Dict HashValue) (l : List (Slice × Slice)) : Dict HashValue :=
  l.foldl (fun d p => d.insert (text p.1) (.slice p.2)) d

def execHMSet : List Slice → Exec σ Reply
  | key :: rest => do
      if (key :: rest).length % 2 ≠ 1 then return .syntaxErr
      else
        match ← getOrInitDict env (text key) with
        | .error e => return e
        | .ok d =>
            setDict (text key) (putFields d (fieldPairs rest))
            addAof (cmdLine3 "hmset" (key :: rest))
            return .ok
  | [] => return .syntaxErr

def execHMGet : List Slice → Exec σ Reply
  | key :: fields => do
      match ← getAsDict env (text key) with
      | .error e => return e
      | .ok none => return .multiBulk (fields.map fun _ => none)
      | .ok (some d) =>
          return .multiBulk (fields.map fun field => (d.lookup (text field)).bind HashValue.bytes)
  | [] => panics

def valueOf (d : Dict HashValue) (field : Bytes) : Slice := (d.lookup field).bind HashValue.bytes

def execHKeys : List Slice → Exec σ Reply
  | key :: _ => do
      match ← getAsDict env (text key) with
      | .error e => return e
      | .ok none => return .emptyMultiBulk
      | .ok (some d) => return .multiBulk ((env.choices.order d.keys).map some)
  | [] => panics

def execHVals : List Slice → Exec σ Reply
  | key :: _ => do
      match ← getAsDict env (text key) with
      | .error e => return e
      | .ok none => return .emptyMultiBulk
      | .ok (some d) => return .multiBulk ((env.choices.order d.keys).map (valueOf d))
  | [] => panics

def execHGetAll : List Slice → Exec σ Reply
  | key :: _ => do
      match ← getAsDict env (text key) with
      | .error e => return e
      | .ok none => return .emptyMultiBulk
      | .ok (some d) =>
          return .multiBulk ((env.choices.order d.keys).flatMap fun f => [some f, valueOf d f])
  | [] => panics

def execHIncrBy : List Slice → Exec σ Reply
  | key :: field :: rawDelta :: rest => do
      match parseInt 64 (text rawDelta) with
      | none => return notInteger
      | some delta =>
          match ← getOrInitDict env (text key) with
          | .error e => return e
          | .ok d =>
              match d.lookup (text field) with
              | none =>
                  setDict (text key) (d.insert (text field) (.slice rawDelta))
                  addAof (cmdLine3 "hincrby" (key :: field :: rawDelta :: rest))
                  return .bulk rawDelta
              | some (.string _) => panics
              | some (.slice value) =>
                  match parseInt 64 (text value) with
                  | none => return errReply "ERR hash value is not an integer"
                  | some val =>
                      let result := some (formatInt (wrap64 (val + delta)))
                      setDict (text key) (d.insert (text field) (.slice result))
                      addAof (cmdLine3 "hincrby" (key :: field :: rawDelta :: rest))
                      return .bulk result
  | _ => panics

def execHIncrByFloat : List Slice → Exec σ Reply
  | key :: field :: rawDelta :: rest => do
      if ¬ env.lib.isDecimal (text rawDelta) then
        return errReply "ERR value is not a valid float"
      else
        match ← getOrInitDict env (text key) with
        | .error e => return e
        | .ok d =>
            match d.lookup (text field) with
            | none =>
                setDict (text key) (d.insert (text field) (.slice rawDelta))
                return .bulk rawDelta
            | some (.string _) => panics
            | some (.slice value) =>
                if ¬ env.lib.isDecimal (text value) then
                  return errReply "ERR hash value is not a float"
                else
                  let result := some (env.lib.addDecimal (text value) (text rawDelta))
                  setDict (text key) (d.insert (text field) (.slice result))
                  addAof (cmdLine3 "hincrbyfloat" (key :: field :: rawDelta :: rest))
                  return .bulk result
  | _ => panics

/-- The fields with their values; a field that is not there or holds a string panics. -/
def withValues (d : Dict HashValue) : List Bytes → Option (List Slice)
  | [] => some []
  | field :: fields =>
      match d.lookup field with
      | some (.slice value) => (withValues d fields).map fun l => some field :: value :: l
      | _ => none

def randFields (d : Dict HashValue) (limit : Int) (values : Bool) : Exec σ Reply :=
  match randomKeys env.choices d.keys limit with
  | none => panics
  | some fields =>
      if values then
        match withValues d fields with
        | none => panics
        | some l => return .multiBulk l
      else return .multiBulk (fields.map some)

def randField (key : Slice) (count : Int) (values : Bool) : Exec σ Reply := do
  match ← getAsDict env (text key) with
  | .error e => return e
  | .ok none => return .emptyMultiBulk
  | .ok (some d) =>
      if 0 < count then randFields env d count values
      else if count < 0 then randFields env d (wrap64 (-count)) values
      else return .emptyMultiBulk

def execHRandField : List Slice → Exec σ Reply
  | [key] => randField env key 1 false
  | [key, rawCount] =>
      match parseInt 64 (text rawCount) with
      | none => return notInteger
      | some count => randField env key count false
  | [key, rawCount, option] =>
      if toLower (text option) = bytes "withvalues" then
        match parseInt 64 (text rawCount) with
        | none => return notInteger
        | some count => randField env key count true
      else return .syntaxErr
  | [] => panics
  | _ => return errReply "ERR wrong number of arguments for 'hrandfield' command"

end Traitor.Database
