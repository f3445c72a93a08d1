import Mathlib.Data.Finset.Basic
import Traitor.Database
import Traitor.Lib.TimeLayout

namespace Traitor.LocalDb

open Database (toLower)
open Lib.Strconv Lib.TimeLayout Protocol

/-- An instant in seconds since 1970, as the clock of its location shows it, and what its
text has after the seconds. -/
structure Time where
  unix : Int
  wall : DateTime
  suffix : Bytes

def Time.zero : Time where
  unix := -62135596800
  wall := {
    year := 1
    month := 1
    day := 1
    hour := 0
    minute := 0
    second := 0
    month_le := by decide
    day_le := by decide
    hour_lt := by decide
    minute_lt := by decide
    second_lt := by decide }
  suffix := bytes " +0000 UTC"

/-- `TimeStamp.ToString`. -/
def Time.toText (t : Time) : Bytes := format (bytes "2006-01-02 15:04:05") t.wall

def Time.string (t : Time) : Bytes := t.toText ++ t.suffix

structure JobEntity where
  name : Bytes
  jobId : Bytes
  cron : Bytes
  description : Bytes
  lastExecTime : Option Time
  execAt : Option Time
  execType : UInt8
  state : UInt8
  script : Bytes

def JobEntity.zero : JobEntity := ⟨[], [], [], [], none, none, 0, 0, []⟩

structure ScriptEntity where
  jobId : Bytes
  script : Bytes

def runnable : UInt8 := 1

namespace Field

def jobId : Bytes := bytes "jobId"
def script : Bytes := bytes "script"
def name : Bytes := bytes "name"
def lastExecTime : Bytes := bytes "lastExecTime"
def description : Bytes := bytes "description"
def cron : Bytes := bytes "cron"
def execType : Bytes := bytes "execType"
def execAt : Bytes := bytes "execAt"
def state : Bytes := bytes "state"

end Field

def jobKeysSet : Bytes := bytes "job_keys_set"

inductive Value
  | string (s : Bytes)
  | uint8 (n : UInt8)
  | uint64 (n : UInt64)
  | float64 (x : Rat)
  | bool (b : Bool)
  | time (t : Time)
  | timePtr (t : Option Time)
  | timeStampPtr (t : Option Time)
  | null

/-- The order in which maps and sets are gone through, and the strings of new identifiers. -/
structure Library where
  order : List (Bytes × Value) → List (Bytes × Value)
  order_perm : ∀ l, (order l).Perm l
  members : Finset Bytes → List Bytes
  members_nodup : ∀ s, (members s).Nodup
  mem_members : ∀ s member, member ∈ members s ↔ member ∈ s
  newString : Bytes

abbrev Hash := Bytes → Option Bytes

inductive Item
  | hash (fields : Hash)
  | set (members : Finset Bytes)
  | other

abbrev Db := Bytes → Option Item

def wrongType : Reply :=
  .standardErr (bytes "WRONGTYPE Operation against a key holding the wrong kind of value")

/-- What the client reads of an array: a nil comes as an empty argument. -/
def readArray (args : List (Option Bytes)) : Reply :=
  if args = [] then .emptyMultiBulk else .multiBulk (args.map fun arg => some (arg.getD []))

namespace Db

def putFields (fields : Hash) : List Bytes → Hash
  | field :: value :: args => putFields (Function.update fields field (some value)) args
  | _ => fields

def hmset (db : Db) : List Bytes → Reply × Db
  | key :: args =>
      if args.length < 2 then (.standardErr (bytes "ERR wrong number of arguments for 'hmset' command"), db)
      else if args.length % 2 = 1 then (.standardErr (bytes "Err syntax error"), db)
      else
        match db key with
        | none => (.status (bytes "OK"), Function.update db key (some (.hash (putFields (fun _ => none) args))))
        | some (.hash fields) =>
            (.status (bytes "OK"), Function.update db key (some (.hash (putFields fields args))))
        | some _ => (wrongType, db)
  | [] => (.standardErr (bytes "ERR wrong number of arguments for 'hmset' command"), db)

def hmget (db : Db) (key : Bytes) (fields : List Bytes) : Reply :=
  match db key with
  | none => readArray (fields.map fun _ => none)
  | some (.hash hash) => readArray (fields.map hash)
  | some _ => wrongType

def hget (db : Db) (key field : Bytes) : Reply :=
  match db key with
  | none => .nullBulk
  | some (.hash hash) =>
      match hash field with
      | none => .nullBulk
      | some value => .bulk (some value)
  | some _ => wrongType

def hset (db : Db) (key field value : Bytes) : Reply × Db :=
  match db key with
  | none => (.int 1, Function.update db key (some (.hash (putFields (fun _ => none) [field, value]))))
  | some (.hash hash) =>
      (.int (if (hash field).isSome then 0 else 1),
        Function.update db key (some (.hash (putFields hash [field, value]))))
  | some _ => (wrongType, db)

def sadd (db : Db) (key member : Bytes) : Reply × Db :=
  match db key with
  | none => (.int 1, Function.update db key (some (.set {member})))
  | some (.set members) =>
      (.int (if member ∈ members then 0 else 1),
        Function.update db key (some (.set (insert member members))))
  | some _ => (wrongType, db)

/-- A set that loses its last member is removed. -/
def srem (db : Db) (key member : Bytes) : Reply × Db :=
  match db key with
  | none => (.int 0, db)
  | some (.set members) =>
      (.int (if member ∈ members then 1 else 0),
        Function.update db key (if members.erase member = ∅ then none else some (.set (members.erase member))))
  | some _ => (wrongType, db)

def smembers (lib : Library) (db : Db) (key : Bytes) : Reply :=
  match db key with
  | none => .emptyMultiBulk
  | some (.set members) => readArray ((lib.members members).map some)
  | some _ => wrongType

def del (db : Db) (key : Bytes) : Reply × Db :=
  (.int (if (db key).isSome then 1 else 0), Function.update db key none)

end Db

def isOKReply : Reply → Bool
  | .status status => status = bytes "OK"
  | _ => false

def omitEmpty (s : Bytes) : Option Value := if s = [] then none else some (.string s)

/-- The fields of a job with their tags. All but two are left out if they are zero. -/
def structsFields (job : JobEntity) : List (Bytes × Option Value) := [
  (Field.name, omitEmpty job.name),
  (Field.jobId, omitEmpty job.jobId),
  (Field.cron, omitEmpty job.cron),
  (Field.description, omitEmpty job.description),
  (Field.lastExecTime, job.lastExecTime.map fun t => .timePtr (some t)),
  (Field.execAt, job.execAt.map fun t => .timeStampPtr (some t)),
  (Field.execType, some (.uint8 job.execType)),
  (Field.state, some (.uint8 job.state)),
  (Field.script, omitEmpty job.script)]

def structsMap (job : JobEntity) : List (Bytes × Value) :=
  (structsFields job).filterMap fun (k, v) => v.map fun value => (k, value)

/-- The text that `AddJob` stores of a value. Other values are ignored. -/
def addText : Value → Option Bytes
  | .string s => some s
  | .uint8 n => some (formatNat n.toNat)
  | .uint64 n => some (formatNat n.toNat)
  | .timePtr (some t) => some t.string
  | .timeStampPtr (some t) => some t.toText
  | _ => none

def updateText : Value → Option Bytes
  | .string s => some s
  | .uint8 n => some (formatNat n.toNat)
  | .uint64 n => some (formatNat n.toNat)
  | .time t => some t.string
  | _ => none

def pairs (text : Value → Option Bytes) (mp : List (Bytes × Value)) : List (Bytes × Bytes) :=
  mp.filterMap fun (k, v) => (text v).map fun value => (k, value)

/-- The array has room for every entry. What the ignored ones leave is empty strings. -/
def fillArgs (text : Value → Option Bytes) (mp : List (Bytes × Value)) : List Bytes :=
  (pairs text mp).flatMap (fun (k, value) => [k, value]) ++
    List.replicate (mp.length * 2 - (pairs text mp).length * 2) []

section

variable (lib : Library) (db : Db)

def addFailed : Bytes := bytes "add failed"

def addJob (job : JobEntity) : (Bytes × Option Bytes) × Db :=
  let jobId := if job.jobId = [] then lib.newString else job.jobId
  let mp := lib.order (structsMap { job with jobId := jobId })
  let (reply, db) := db.hmset (jobId :: fillArgs addText mp)
  if isOKReply reply then
    match db.sadd jobKeysSet jobId with
    | (.int 1, db) => ((jobId, none), db)
    | (_, db) => ((jobId, some addFailed), db)
  else ((jobId, some addFailed), db)

def updateJob (jobId : Bytes) (mp : List (Bytes × Value)) : Option Bytes × Db :=
  if jobId = [] then (some (bytes "job id cannot be empty"), db)
  else
    let mp := lib.order (mp.filter fun (k, _) => k ≠ Field.jobId)
    let (reply, db) := db.hmset (jobId :: fillArgs updateText mp)
    if isOKReply reply then (none, db) else (some addFailed, db)

def editJobScript (jobId script : Bytes) : Option Bytes × Db :=
  match db.hset jobId Field.script script with
  | (.int _, db) => (none, db)
  | (_, db) => (some (bytes "update failed"), db)

def removeJob (jobId : Bytes) : Option Bytes × Db :=
  match db.srem jobKeysSet jobId with
  | (.int 1, db) =>
      match db.del jobId with
      | (.int 1, db) => (none, db)
      | (_, db) => (some (bytes "remove failed"), db)
  | (_, db) => (some (bytes "remove failed"), db)

/-- None if the numbers of keys and of arguments differ. -/
def toMap (args : List (Option Bytes)) (keys : List Bytes) : Option (Bytes → Bytes) :=
  if keys.length = args.length then
    some fun key => (((keys.zip args).lookup key).getD none).getD []
  else none

def infoFields : List Bytes :=
  [Field.name, Field.cron, Field.lastExecTime, Field.state, Field.description, Field.execType,
    Field.execAt]

/-- The layout is not one of Go, and the test for an error is the wrong way round: what is
loaded is the zero time. -/
def readTime (text : Bytes) : Option Time :=
  if text = [] then none
  else
    match parse (bytes "2017-08-30 16:40:41") text with
    | some _ => none
    | none => some .zero

def readUint8 (text : Bytes) : UInt8 := UInt8.ofNat ((parseUint 8 text).getD 0)

def getJobInfo (jobId : Bytes) : Except Bytes JobEntity :=
  match db.hmget jobId infoFields with
  | .multiBulk args =>
      match toMap args infoFields with
      | none => .error (bytes "convert to map error.num of keys doesn't match")
      | some mp => .ok {
          jobId := jobId
          name := mp Field.name
          cron := mp Field.cron
          description := mp Field.description
          lastExecTime := readTime (mp Field.lastExecTime)
          execAt := readTime (mp Field.execAt)
          state := readUint8 (mp Field.state)
          execType := readUint8 (mp Field.execType)
          script := [] }
  | _ => .error (bytes "jobId is not exists")

def getJobScript (jobId : Bytes) : ScriptEntity :=
  match db.hget jobId Field.script with
  | .bulk arg => ⟨jobId, arg.getD []⟩
  | _ => ⟨[], []⟩

/-- None is a panic. A job that cannot be read leaves a zero entity. -/
def getJobInfos : Option (List JobEntity) :=
  match db.smembers lib jobKeysSet with
  | .emptyMultiBulk => some []
  | .multiBulk args => some (args.map fun arg =>
      match getJobInfo db (arg.getD []) with
      | .ok entity => entity
      | .error _ => .zero)
  | _ => none

/-- The slice has room for all the jobs. What the others leave is zero entities. -/
def getRunnableJobs : Option (List JobEntity) :=
  (getJobInfos lib db).map fun all =>
    let found := all.filter fun j => j.state = runnable
    found ++ List.replicate (all.length - found.length) .zero

end

end Traitor.LocalDb
