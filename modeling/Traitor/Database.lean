import Mathlib.Data.Finmap
import Traitor.Basic
import Traitor.Lib.Effects
import Traitor.Lib.FiniteMaps
import Traitor.Lib.Strconv
import Traitor.Protocol
import Traitor.SkipList
import Traitor.StoredList

namespace Traitor.Database

open Lib.Effects Lib.Strconv Protocol

/-- None is the nil slice. -/
abbrev Slice := Option Bytes

def text (s : Slice) : Bytes := s.getD []

abbrev CmdLine := List Slice

abbrev Dict (β : Type) := Finmap fun _ : Bytes => β

/-- A hash holds slices, but one of the commands stores strings. -/
inductive HashValue
  | slice (s : Slice)
  | string (s : Bytes)
deriving DecidableEq

/-- The type assertion whose second result is not looked at. -/
def HashValue.bytes : HashValue → Slice
  | .slice s => s
  | .string _ => none

/-- An element of a sorted set, and the height of its node in the skip list. -/
structure Node (σ : Type) where
  score : σ
  member : Bytes
  height : Nat
deriving DecidableEq

structure ZSet (σ : Type) where
  dict : Dict σ
  nodes : List (Node σ)

inductive Entity (σ : Type)
  | str (s : Slice)
  | list (l : StoredList Slice)
  | hash (d : Dict HashValue)
  | set (s : Finset Bytes)
  | zset (z : ZSet σ)

structure DB (σ : Type) where
  data : Dict (Entity σ)
  ttlMap : Dict Int
  versionMap : Bytes → UInt32

structure World (σ : Type) where
  db : DB σ
  aof : List CmdLine

/-- The functions of the libraries: numbers as text and the message of the integer
parser, patterns, and the growth of slices. -/
structure Library (σ : Type) where
  parseFloat : Bytes → Option σ
  formatFloat : σ → Bytes
  addFloat : σ → σ → σ
  isDecimal : Bytes → Bool
  addDecimal : Bytes → Bytes → Bytes
  compilePattern : Bytes → Option (Bytes → Bool)
  numError : Bytes → Bytes
  grow : Nat → Nat → Nat

/-- The random choices in a command: the order in which a map is iterated, and the
heights of new nodes. -/
structure Choices where
  order : Finset Bytes → List Bytes
  order_nodup : ∀ s, (order s).Nodup
  mem_order : ∀ s key, key ∈ order s ↔ key ∈ s
  height : Nat → Nat
  height_pos : ∀ i, 1 ≤ height i
  height_le : ∀ i, height i ≤ 17

theorem Choices.length_order (c : Choices) (s : Finset Bytes) : (c.order s).length = s.card := by
  rw [← List.toFinset_card_of_nodup (c.order_nodup s)]
  congr 1
  ext key
  rw [List.mem_toFinset, c.mem_order]

structure Env (σ : Type) where
  lib : Library σ
  now : Int
  choices : Choices

def Library.plain : Library ℤ where
  parseFloat _ := none
  formatFloat _ := []
  addFloat := (· + ·)
  isDecimal _ := false
  addDecimal a _ := a
  compilePattern _ := none
  numError s := s
  grow n _ := n

noncomputable def Env.plain (now : Int) : Env ℤ where
  lib := .plain
  now := now
  choices := {
    order := Finset.toList
    order_nodup := Finset.nodup_toList
    mem_order := fun _ _ => Finset.mem_toList
    height := fun _ => 1
    height_pos := fun _ => le_rfl
    height_le := fun _ => by decide }

abbrev Exec (σ α : Type) := Program (World σ) α

variable {σ : Type}

namespace DB

def put (db : DB σ) (key : Bytes) (entity : Entity σ) : DB σ :=
  { db with data := db.data.insert key entity }

def remove (db : DB σ) (key : Bytes) : DB σ :=
  { db with data := db.data.erase key, ttlMap := db.ttlMap.erase key }

def expire (db : DB σ) (key : Bytes) (expireTime : Int) : DB σ :=
  { db with ttlMap := db.ttlMap.insert key expireTime }

def persist (db : DB σ) (key : Bytes) : DB σ := { db with ttlMap := db.ttlMap.erase key }

def isExpired (db : DB σ) (env : Env σ) (key : Bytes) : Bool :=
  match db.ttlMap.lookup key with
  | none => false
  | some expireTime => expireTime < env.now

/-- What `getEntity` finds, and the database it leaves. -/
def live (db : DB σ) (env : Env σ) (key : Bytes) : Option (Entity σ) :=
  if db.isExpired env key then none else db.data.lookup key

def evict (db : DB σ) (env : Env σ) (key : Bytes) : DB σ :=
  if (db.data.lookup key).isSome ∧ db.isExpired env key then db.remove key else db

end DB

def modifyDB (f : DB σ → DB σ) : Exec σ PUnit := modify fun w => { w with db := f w.db }

def addAof (line : CmdLine) : Exec σ PUnit := modify fun w => { w with aof := w.aof ++ [line] }

def putEntity (key : Bytes) (entity : Entity σ) : Exec σ PUnit := modifyDB (·.put key entity)

def has (key : Bytes) : Exec σ Bool := return ((← get).db.data.lookup key).isSome

def putIfAbsent (key : Bytes) (entity : Entity σ) : Exec σ Int := do
  if ← has key then return 0
  else
    putEntity key entity
    return 1

def putIfExists (key : Bytes) (entity : Entity σ) : Exec σ Int := do
  if ← has key then
    putEntity key entity
    return 1
  else return 0

def remove (key : Bytes) : Exec σ PUnit := modifyDB (·.remove key)

def expire (key : Bytes) (expireTime : Int) : Exec σ PUnit := modifyDB (·.expire key expireTime)

def persist (key : Bytes) : Exec σ PUnit := modifyDB (·.persist key)

def getTTL (key : Bytes) : Exec σ (Option Int) := return (← get).db.ttlMap.lookup key

def removes : List Bytes → Exec σ Int
  | [] => return 0
  | key :: keys => do
      if ← has key then
        remove key
        return 1 + (← removes keys)
      else removes keys

section

variable (env : Env σ)

def isExpired (key : Bytes) : Exec σ Bool := do
  let expired := (← get).db.isExpired env key
  if expired then
    remove key
    return true
  else return false

def getEntity (key : Bytes) : Exec σ (Option (Entity σ)) := do
  match (← get).db.data.lookup key with
  | none => return none
  | some entity => if ← isExpired env key then return none else return some entity

def getAs {α : Type} (view : Entity σ → Option α) (key : Bytes) :
    Exec σ (Except Reply (Option α)) := do
  match ← getEntity env key with
  | none => return .ok none
  | some entity =>
      match view entity with
      | none => return .error .wrongTypeErr
      | some a => return .ok (some a)

def getOrInit {α : Type} (view : Entity σ → Option α) (entity : α → Entity σ) (make : α)
    (key : Bytes) : Exec σ (Except Reply α) := do
  match ← getAs env view key with
  | .error e => return .error e
  | .ok (some a) => return .ok a
  | .ok none =>
      putEntity key (entity make)
      return .ok make

end

/-- The instant an `int64` of seconds since 1970 stands for. The seconds are kept
from the year 1 on. -/
def unixTime (seconds : Int) : Int := (wrap64 (seconds + 62135596800) - 62135596800) * second

def millisecond : Int := 1000000

def unixNano (t : Int) : Int := wrap64 t

def cmdLine (name : String) (args : List Bytes) : CmdLine := (bytes name :: args).map some

def cmdLine3 (name : String) (args : List Slice) : CmdLine := some (bytes name) :: args

def makeExpireCmd (key : Bytes) (expireAt : Int) : CmdLine :=
  cmdLine "PEXPIREAT" [key, formatInt ((unixNano expireAt).tdiv millisecond)]

def errReply (status : String) : Reply := .standardErr (bytes status)

def notInteger : Reply := errReply "ERR value is not an integer or out of range"

/-- The letters outside ASCII are left out, but for the two that become ASCII ones. -/
def toUpper : Bytes → Bytes
  | 0xC4 :: 0xB1 :: s => 73 :: toUpper s
  | 0xC5 :: 0xBF :: s => 83 :: toUpper s
  | b :: s => (if 97 ≤ b ∧ b ≤ 122 then b - 32 else b) :: toUpper s
  | [] => []

def toLower : Bytes → Bytes
  | 0xE2 :: 0x84 :: 0xAA :: s => 107 :: toLower s
  | 0xC4 :: 0xB0 :: s => 105 :: toLower s
  | b :: s => (if 65 ≤ b ∧ b ≤ 90 then b + 32 else b) :: toLower s
  | [] => []

/-- The keys of a map as the loop over it visits them, after as many empty strings:
the slice is made with its length and then appended to. -/
def dictKeys (c : Choices) (keys : Finset Bytes) : List Bytes :=
  List.replicate keys.card [] ++ c.order keys

/-- None is a slice made with a negative length. -/
def randomKeys (c : Choices) (keys : Finset Bytes) (limit : Int) : Option (List Bytes) :=
  if keys.card ≤ limit then some (dictKeys c keys)
  else if limit < 0 then none
  else some ((c.order keys).take limit.toNat)

end Traitor.Database
