import Traitor.Database

namespace Traitor.Database

open Lib.Effects Lib.Strconv Protocol

variable {σ : Type} (env : Env σ)

def Entity.asList : Entity σ → Option (StoredList Slice)
  | .list l => some l
  | _ => none

def getAsList (key : Bytes) : Exec σ (Except Reply (Option (StoredList Slice))) :=
  getAs env Entity.asList key

/-- The lists of the database are changed in place, which leaves their keys' times to
live alone as `putEntity` does. -/
abbrev setList (key : Bytes) (l : StoredList Slice) : Exec σ PUnit := putEntity key (.list l)

def getOrInitList : Bytes → Exec σ (Except Reply (StoredList Slice)) :=
  getOrInit env Entity.asList .list .newQuickList

def elementIndex (index size : Int) : Option Int :=
  if index < -1 * size then none
  else if index < 0 then some (size + index)
  else if size ≤ index then none
  else some index

def execLIndex : List Slice → Exec σ Reply
  | key :: rawIndex :: _ => do
      match parseInt 64 (text rawIndex) with
      | none => return notInteger
      | some index =>
          match ← getAsList env (text key) with
          | .error e => return e
          | .ok none => return .nullBulk
          | .ok (some l) =>
              match elementIndex index l.size with
              | none => return .nullBulk
              | some index =>
                  match l.get index with
                  | none => panics
                  | some val => return .bulk val
  | _ => panics

def execLLen : List Slice → Exec σ Reply
  | key :: _ => do
      match ← getAsList env (text key) with
      | .error e => return e
      | .ok none => return .int 0
      | .ok (some l) => return .int l.size
  | [] => panics

def removeEmpty (key : Bytes) (l : StoredList Slice) : Exec σ PUnit :=
  if l.size = 0 then remove key else return ⟨⟩

def execLPop : List Slice → Exec σ Reply
  | key :: rest => do
      match ← getAsList env (text key) with
      | .error e => return e
      | .ok none => return .nullBulk
      | .ok (some l) =>
          match l.remove 0 with
          | none => panics
          | some (l, val) =>
              setList (text key) l
              removeEmpty (text key) l
              addAof (cmdLine3 "lpop" (key :: rest))
              return .bulk val
  | [] => panics

def insertFront (key : Bytes) (l : StoredList Slice) : List Slice → Exec σ (StoredList Slice)
  | [] => return l
  | value :: values =>
      match l.insert env.lib.grow 0 value with
      | none => panics
      | some l => do
          setList key l
          insertFront key l values

def execLPush : List Slice → Exec σ Reply
  | key :: values => do
      match ← getOrInitList env (text key) with
      | .error e => return e
      | .ok l =>
          let l ← insertFront env (text key) l values
          addAof (cmdLine3 "lpush" (key :: values))
          return .int l.size
  | [] => panics

def execLPushX : List Slice → Exec σ Reply
  | key :: values => do
      match ← getAsList env (text key) with
      | .error e => return e
      | .ok none => return .int 0
      | .ok (some l) =>
          let l ← insertFront env (text key) l values
          addAof (cmdLine3 "lpushx" (key :: values))
          return .int l.size
  | [] => panics

/-- The slice positions of an inclusive range; none is a start behind the end. -/
def sliceRange (start stop size : Int) : Option (Int × Int) :=
  let start :=
    if start < -1 * size then some 0
    else if start < 0 then some (size + start)
    else if size ≤ start then none
    else some start
  let stop :=
    if stop < -1 * size then 0
    else if stop < 0 then size + stop + 1
    else if stop < size then stop + 1
    else size
  start.map fun start => (start, if stop < start then start else stop)

def execLRange : List Slice → Exec σ Reply
  | key :: rawStart :: rawStop :: _ => do
      match parseInt 64 (text rawStart) with
      | none => return notInteger
      | some start =>
          match parseInt 64 (text rawStop) with
          | none => return notInteger
          | some stop =>
              match ← getAsList env (text key) with
              | .error e => return e
              | .ok none => return .emptyMultiBulk
              | .ok (some l) =>
                  match sliceRange start stop l.size with
                  | none => return .emptyMultiBulk
                  | some (start, stop) =>
                      match l.range start stop with
                      | none => panics
                      | some slice => return .multiBulk slice
  | _ => panics

def removeByCount (l : StoredList Slice) (value : Slice) (count : Int) :
    StoredList Slice × Option Nat :=
  if count = 0 then l.removeAllByVal (fun a => a = value)
  else if 0 < count then l.removeByVal (fun a => a = value) count
  else l.reverseRemoveByVal (fun a => a = value) (wrap64 (-count))

def execLRem : List Slice → Exec σ Reply
  | key :: rawCount :: value :: rest => do
      match parseInt 64 (text rawCount) with
      | none => return notInteger
      | some count =>
          match ← getAsList env (text key) with
          | .error e => return e
          | .ok none => return .int 0
          | .ok (some l) =>
              let (l, removed) := removeByCount l value count
              setList (text key) l
              match removed with
              | none => panics
              | some removed =>
                  removeEmpty (text key) l
                  if 0 < removed then
                    addAof (cmdLine3 "lrem" (key :: rawCount :: value :: rest))
                    return .int removed
                  else return .int removed
  | _ => panics

def execLSet : List Slice → Exec σ Reply
  | key :: rawIndex :: value :: rest => do
      match parseInt 64 (text rawIndex) with
      | none => return notInteger
      | some index =>
          match ← getAsList env (text key) with
          | .error e => return e
          | .ok none => return errReply "ERR no such key"
          | .ok (some l) =>
              match elementIndex index l.size with
              | none => return errReply "ERR index out of range"
              | some index =>
                  match l.set index value with
                  | none => panics
                  | some l =>
                      setList (text key) l
                      addAof (cmdLine3 "lset" (key :: rawIndex :: value :: rest))
                      return .ok
  | _ => panics

/-- The last value, which is the nil slice for a list of size zero. -/
def popLast (key : Bytes) (l : StoredList Slice) : Exec σ (StoredList Slice × Slice) := do
  let (l, val) := l.removeLast
  setList key l
  match val with
  | none => panics
  | some val => return (l, val.join)

def execRPop : List Slice → Exec σ Reply
  | key :: rest => do
      match ← getAsList env (text key) with
      | .error e => return e
      | .ok none => return .nullBulk
      | .ok (some l) =>
          let (l, val) ← popLast (text key) l
          removeEmpty (text key) l
          addAof (cmdLine3 "rpop" (key :: rest))
          return .bulk val
  | [] => panics

def prepareRPopLPush : List Slice → List Bytes × List Bytes
  | source :: dest :: _ => ([text source, text dest], [])
  | _ => ([], [])

/-- The list of a key as it is after the changes made to it so far: both keys may
hold the same list. -/
def currentList (key : Bytes) (l : StoredList Slice) : Exec σ (StoredList Slice) :=
  return (((← get).db.data.lookup key).bind Entity.asList).getD l

def execRPopLPush : List Slice → Exec σ Reply
  | source :: dest :: rest => do
      match ← getAsList env (text source) with
      | .error e => return e
      | .ok none => return .nullBulk
      | .ok (some sourceList) =>
          match ← getOrInitList env (text dest) with
          | .error e => return e
          | .ok destList =>
              let (sourceList, val) ← popLast (text source) sourceList
              let destList ← currentList (text dest) destList
              match destList.insert env.lib.grow 0 val with
              | none => panics
              | some destList =>
                  setList (text dest) destList
                  let sourceList ← currentList (text source) sourceList
                  removeEmpty (text source) sourceList
                  addAof (cmdLine3 "rpoplpush" (source :: dest :: rest))
                  return .bulk val
  | _ => panics

def addBack (key : Bytes) (l : StoredList Slice) : List Slice → Exec σ (StoredList Slice)
  | [] => return l
  | value :: values => do
      let l := l.add env.lib.grow value
      setList key l
      addBack key l values

def execRPush : List Slice → Exec σ Reply
  | key :: values => do
      match ← getOrInitList env (text key) with
      | .error e => return e
      | .ok l =>
          let l ← addBack env (text key) l values
          addAof (cmdLine3 "rpush" (key :: values))
          return .int l.size
  | [] => panics

def execRPushX : List Slice → Exec σ Reply
  | key :: value :: values => do
      match ← getAsList env (text key) with
      | .error e => return e
      | .ok none => return .int 0
      | .ok (some l) =>
          let l ← addBack env (text key) l (value :: values)
          addAof (cmdLine3 "rpushx" (key :: value :: values))
          return .int l.size
  | _ => return errReply "ERR wrong number of arguments for 'rpush' command"

end Traitor.Database
