import Traitor.Database

namespace Traitor.Database

open Lib.Effects Lib.Strconv Protocol

variable {σ : Type} (env : Env σ)

/-- The members that are given to it are not put into the new set. -/
def makeSet (_members : List Bytes) : Finset Bytes := ∅

def Entity.asSet : Entity σ → Option (Finset Bytes)
  | .set s => some s
  | _ => none

def getAsSet (key : Bytes) : Exec σ (Except Reply (Option (Finset Bytes))) :=
  getAs env Entity.asSet key

abbrev setSet (key : Bytes) (s : Finset Bytes) : Exec σ PUnit := putEntity key (.set s)

def getOrInitSet : Bytes → Exec σ (Except Reply (Finset Bytes)) :=
  getOrInit env Entity.asSet .set (makeSet [])

def addMembers (s : Finset Bytes) : List Bytes → Finset Bytes × Int
  | [] => (s, 0)
  | member :: members =>
      let (s', added) := addMembers (insert member s) members
      (s', (if member ∈ s then 0 else 1) + added)

def removeMembers (s : Finset Bytes) : List Bytes → Finset Bytes × Int
  | [] => (s, 0)
  | member :: members =>
      let (s', removed) := removeMembers (s.erase member) members
      (s', (if member ∈ s then 1 else 0) + removed)

def execSAdd : List Slice → Exec σ Reply
  | key :: members => do
      match ← getOrInitSet env (text key) with
      | .error e => return e
      | .ok s =>
          let (s, counter) := addMembers s (members.map text)
          setSet (text key) s
          addAof (cmdLine3 "sadd" (key :: members))
          return .int counter
  | [] => panics

def execSIsMember : List Slice → Exec σ Reply
  | key :: member :: _ => do
      match ← getAsSet env (text key) with
      | .error e => return e
      | .ok none => return .int 0
      | .ok (some s) => return .int (if text member ∈ s then 1 else 0)
  | _ => panics

def execSRem : List Slice → Exec σ Reply
  | key :: members => do
      match ← getAsSet env (text key) with
      | .error e => return e
      | .ok none => return .int 0
      | .ok (some s) =>
          let (s, counter) := removeMembers s (members.map text)
          setSet (text key) s
          if s.card = 0 then remove (text key)
          if 0 < counter then addAof (cmdLine3 "srem" (key :: members))
          return .int counter
  | [] => panics

def popCount : List Slice → Option Int
  | [] => some 1
  | rawCount :: _ =>
      match parseInt 64 (text rawCount) with
      | none => none
      | some count => if count ≤ 0 then none else some count

theorem popCount_pos {rest : List Slice} {count : Int} (h : popCount rest = some count) : 0 < count := by
  cases rest with
  | nil =>
      cases h
      decide
  | cons rawCount rest =>
      rw [popCount] at h
      split at h
      · cases h
      · split at h
        · cases h
        · cases h
          omega

def popMembers (key : Slice) (rest : List Slice) : Exec σ Reply := do
  match ← getAsSet env (text key) with
  | .error e => return e
  | .ok none => return .nullBulk
  | .ok (some s) =>
      match popCount rest with
      | none => return errReply "ERR value is out of range, must be positive"
      | some count =>
          let count := if s.card < count then (s.card : Int) else count
          match randomKeys env.choices s count with
          | none => panics
          | some members =>
              setSet (text key) (removeMembers s members).1
              if 0 < count then addAof (cmdLine3 "spop" (key :: rest))
              return .multiBulk (members.map some)

def execSPop : List Slice → Exec σ Reply
  | [key] => popMembers env key []
  | [key, rawCount] => popMembers env key [rawCount]
  | _ => return errReply "ERR wrong number of arguments for 'spop' command"

def execSCard : List Slice → Exec σ Reply
  | key :: _ => do
      match ← getAsSet env (text key) with
      | .error e => return e
      | .ok none => return .int 0
      | .ok (some s) => return .int s.card
  | [] => panics

theorem multiBulk_inj {l l' : List Bytes} (h : Reply.multiBulk (l.map some) = .multiBulk (l'.map some)) : l = l' :=
  List.map_injective_iff.mpr (Option.some_injective _) (Reply.multiBulk.inj h)

def members (s : Finset Bytes) : Reply := .multiBulk ((env.choices.order s).map some)

def execSMembers : List Slice → Exec σ Reply
  | key :: _ => do
      match ← getAsSet env (text key) with
      | .error e => return e
      | .ok none => return .emptyMultiBulk
      | .ok (some s) => return members env s
  | [] => panics

/-- What the loop over the keys comes to: an early answer, or the set so far, which
is none while no key was there. -/
inductive Calculated
  | answer (reply : Reply)
  | empty
  | result (s : Option (Finset Bytes))

def interLoop (result : Option (Finset Bytes)) : List Bytes → Exec σ Calculated
  | [] => return .result result
  | key :: keys => do
      match ← getAsSet env key with
      | .error e => return .answer e
      | .ok none => return .empty
      | .ok (some s) =>
          match result with
          | none => interLoop (some (makeSet (dictKeys env.choices s))) keys
          | some r => if (r ∩ s).card = 0 then return .empty else interLoop (some (r ∩ s)) keys

def execSInter (args : List Slice) : Exec σ Reply := do
  match ← interLoop env none (args.map text) with
  | .answer e => return e
  | .empty => return .emptyMultiBulk
  | .result none => panics
  | .result (some s) => return members env s

/-- The result is copied into the set that is stored. -/
def storeSet (name : String) (dest : Slice) (keys : List Slice) (result : Finset Bytes) :
    Exec σ Reply := do
  let s := makeSet (dictKeys env.choices result)
  setSet (text dest) s
  addAof (cmdLine3 name (dest :: keys))
  return .int s.card

def execSInterStore : List Slice → Exec σ Reply
  | dest :: keys => do
      match ← interLoop env none (keys.map text) with
      | .answer e => return e
      | .empty =>
          remove (text dest)
          return .int 0
      | .result none => panics
      | .result (some s) => storeSet env "sinterstore" dest keys s
  | [] => panics

def unionLoop (result : Option (Finset Bytes)) : List Bytes → Exec σ Calculated
  | [] => return .result result
  | key :: keys => do
      match ← getAsSet env key with
      | .error e => return .answer e
      | .ok none => unionLoop result keys
      | .ok (some s) =>
          match result with
          | none => unionLoop (some (makeSet (dictKeys env.choices s))) keys
          | some r => unionLoop (some (r ∪ s)) keys

def execSUnion (args : List Slice) : Exec σ Reply := do
  match ← unionLoop env none (args.map text) with
  | .answer e => return e
  | .empty => return .emptyMultiBulk
  | .result none => return .emptyMultiBulk
  | .result (some s) => return members env s

def execSUnionStore : List Slice → Exec σ Reply
  | dest :: keys => do
      match ← unionLoop env none (keys.map text) with
      | .answer e => return e
      | .empty =>
          remove (text dest)
          return .emptyMultiBulk
      | .result none =>
          remove (text dest)
          return .emptyMultiBulk
      | .result (some s) =>
          remove (text dest)
          storeSet env "sunionstore" dest keys s
  | [] => panics

/-- Only a first key that is not there ends the loop. -/
def diffLoop (first : Bool) (result : Option (Finset Bytes)) : List Bytes → Exec σ Calculated
  | [] => return .result result
  | key :: keys => do
      match ← getAsSet env key with
      | .error e => return .answer e
      | .ok none => if first then return .empty else diffLoop false result keys
      | .ok (some s) =>
          match result with
          | none => diffLoop false (some (makeSet (dictKeys env.choices s))) keys
          | some r => if (r \ s).card = 0 then return .empty else diffLoop false (some (r \ s)) keys

def execSDiff (args : List Slice) : Exec σ Reply := do
  match ← diffLoop env true none (args.map text) with
  | .answer e => return e
  | .empty => return .emptyMultiBulk
  | .result none => return .emptyMultiBulk
  | .result (some s) => return members env s

def execSDiffStore : List Slice → Exec σ Reply
  | dest :: keys => do
      match ← diffLoop env true none (keys.map text) with
      | .answer e => return e
      | .empty =>
          remove (text dest)
          return .int 0
      | .result none =>
          remove (text dest)
          return .emptyMultiBulk
      | .result (some s) => storeSet env "sdiffstore" dest keys s
  | [] => panics

def randMembers (s : Finset Bytes) (limit : Int) : Exec σ Reply :=
  match randomKeys env.choices s limit with
  | none => panics
  | some l => return .multiBulk (l.map some)

def execSRandMember : List Slice → Exec σ Reply
  | [key] => do
      match ← getAsSet env (text key) with
      | .error e => return e
      | .ok none => return .nullBulk
      | .ok (some s) =>
          match randomKeys env.choices s 1 with
          | some (member :: _) => return .bulk (some member)
          | _ => panics
  | [key, rawCount] => do
      match ← getAsSet env (text key) with
      | .error e => return e
      | .ok none => return .nullBulk
      | .ok (some s) =>
          match parseInt 64 (text rawCount) with
          | none => return notInteger
          | some count =>
              if 0 < count then randMembers env s count
              else if count < 0 then randMembers env s (wrap64 (-count))
              else return .emptyMultiBulk
  | _ => return errReply "ERR wrong number of arguments for 'srandmember' command"

def prepareSetCalculate (args : List Slice) : List Bytes × List Bytes := ([], args.map text)

def prepareSetCalculateStore : List Slice → List Bytes × List Bytes
  | dest :: keys => ([text dest], keys.map text)
  | [] => ([], [])

end Traitor.Database
