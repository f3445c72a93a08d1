import Mathlib.Data.Finmap
import Traitor.Basic
import Traitor.Lib.FiniteMaps
import Traitor.Lib.Shards

namespace Traitor.Dicts

open Lib.Shards

variable {β : Type}

abbrev GoMap (β : Type) := Finmap fun _ : Bytes => β

structure Iteration (β : Type) where
  order : GoMap β → List (Bytes × β)
  enumerates : ∀ m, Enumerates m (order m)

def Iteration.keys (it : Iteration β) (m : GoMap β) : List Bytes := (it.order m).map Prod.fst

/-- The consumer is asked after each entry if the loop shall go on, and may remember the entries before. -/
abbrev Consumer (β : Type) := List (Bytes × β) → Bool

structure SimpleDict (β : Type) where
  m : GoMap β

namespace SimpleDict

def makeSimple : SimpleDict β := ⟨∅⟩

def get (d : SimpleDict β) (key : Bytes) : Option β := d.m.lookup key

def len (d : SimpleDict β) : Int := d.m.keys.card

def put (d : SimpleDict β) (key : Bytes) (val : β) : SimpleDict β × Int :=
  (⟨d.m.insert key val⟩, if (d.m.lookup key).isSome then 0 else 1)

def putIfAbsent (d : SimpleDict β) (key : Bytes) (val : β) : SimpleDict β × Int :=
  if (d.m.lookup key).isSome then (d, 0) else (⟨d.m.insert key val⟩, 1)

def putIfExists (d : SimpleDict β) (key : Bytes) (val : β) : SimpleDict β × Int :=
  if (d.m.lookup key).isSome then (⟨d.m.insert key val⟩, 1) else (d, 0)

def remove (d : SimpleDict β) (key : Bytes) : SimpleDict β × Int :=
  if (d.m.lookup key).isSome then (⟨d.m.erase key⟩, 1) else (d, 0)

def forEach (d : SimpleDict β) (it : Iteration β) (consumer : Consumer β) : List (Bytes × β) :=
  visit consumer [] (it.order d.m)

/-- The keys are appended to a slice that is made with as many empty strings. -/
def keys (d : SimpleDict β) (it : Iteration β) : List Bytes :=
  List.replicate d.m.keys.card [] ++ it.keys d.m

/-- None is the panic at a slice of negative length. -/
def randomKeys (d : SimpleDict β) (it : Iteration β) (limit : Int) : Option (List Bytes) :=
  if d.len ≤ limit then some (d.keys it)
  else if limit < 0 then none
  else some ((it.keys d.m).take limit.toNat)

def randomDistinctKeys (d : SimpleDict β) (it : Iteration β) (limit : Int) : Option (List Bytes) :=
  d.randomKeys it limit

def clear (_ : SimpleDict β) : SimpleDict β := makeSimple

end SimpleDict

def wrap32 (i : Int) : Int := i.bmod (2 ^ 32)

/-- The locks of the shards are left out: one operation follows the other. -/
structure ConcurrentDict (β : Type) where
  table : List (GoMap β)
  count : Int
  shardCount : BitVec 64

def prime32 : UInt32 := 16777619

def hash (key : Bytes) : UInt32 :=
  key.foldl (fun hash b => hash * prime32 ^^^ b.toUInt32) 2166136261

def computeCapacity (param : BitVec 64) : BitVec 64 :=
  if param.sle 16#64 then 16#64
  else
    let n := param - 1#64
    let n := n ||| n.sshiftRight 1
    let n := n ||| n.sshiftRight 2
    let n := n ||| n.sshiftRight 4
    let n := n ||| n.sshiftRight 8
    let n := n ||| n.sshiftRight 16
    if n.slt 0#64 then 2147483647#64 else n + 1#64

def Allocates (maxAlloc : Nat) (size : BitVec 64) : Prop :=
  size.slt 0#64 = false ∧ 8 * size.toNat ≤ maxAlloc

instance (maxAlloc : Nat) (size : BitVec 64) : Decidable (Allocates maxAlloc size) := by
  unfold Allocates
  infer_instance

namespace ConcurrentDict

/-- None is a panic, here and in the other operations. -/
def makeConcurrentDict (maxAlloc : Nat) (shardCount : BitVec 64) : Option (ConcurrentDict β) :=
  let shardCount := computeCapacity shardCount
  if Allocates maxAlloc shardCount then some ⟨List.replicate shardCount.toNat ∅, 0, shardCount⟩ else none

def spread (d : ConcurrentDict β) (hashCode : UInt32) : UInt32 :=
  (UInt32.ofNat d.table.length - 1) &&& hashCode

def getShard (d : ConcurrentDict β) (index : UInt32) : Option (GoMap β) := d.table[index.toNat]?

def get (d : ConcurrentDict β) (key : Bytes) : Option (Option β) :=
  (d.getShard (d.spread (hash key))).map (·.lookup key)

def len (d : ConcurrentDict β) : Int := d.count

def addCount (d : ConcurrentDict β) : ConcurrentDict β := { d with count := wrap32 (d.count + 1) }

def setShard (d : ConcurrentDict β) (index : UInt32) (shard : GoMap β) : ConcurrentDict β :=
  { d with table := d.table.set index.toNat shard }

def put (d : ConcurrentDict β) (key : Bytes) (val : β) : Option (ConcurrentDict β × Int) :=
  let index := d.spread (hash key)
  (d.getShard index).map fun shard =>
    let d := d.setShard index (shard.insert key val)
    if (shard.lookup key).isSome then (d, 0) else (d.addCount, 1)

def putIfAbsent (d : ConcurrentDict β) (key : Bytes) (val : β) : Option (ConcurrentDict β × Int) :=
  let index := d.spread (hash key)
  (d.getShard index).map fun shard =>
    if (shard.lookup key).isSome then (d, 0)
    else ((d.setShard index (shard.insert key val)).addCount, 1)

def putIfExists (d : ConcurrentDict β) (key : Bytes) (val : β) : Option (ConcurrentDict β × Int) :=
  let index := d.spread (hash key)
  (d.getShard index).map fun shard =>
    if (shard.lookup key).isSome then (d.setShard index (shard.insert key val), 1) else (d, 0)

/-- The count stays as it is. -/
def remove (d : ConcurrentDict β) (key : Bytes) : Option (ConcurrentDict β × Int) :=
  let index := d.spread (hash key)
  (d.getShard index).map fun shard =>
    if (shard.lookup key).isSome then (d.setShard index (shard.erase key), 1) else (d, 0)

/-- The consumer that stops ends the loop over its shard only. -/
def forEach (d : ConcurrentDict β) (it : Iteration β) (consumer : Consumer β) : List (Bytes × β) :=
  visitAll consumer [] (d.table.map it.order)

/-- The key is put at the next place of the slice, which grows when there is none. The places of
grown slices are counted like the others. -/
def fill : List Bytes → Nat → List Bytes → List Bytes
  | keys, _, [] => keys
  | keys, i, key :: rest =>
      if i < keys.length then fill (keys.set i key) (i + 1) rest else fill (keys ++ [key]) i rest

def keys (d : ConcurrentDict β) (it : Iteration β) : Option (List Bytes) :=
  if d.len < 0 then none
  else some (fill (List.replicate d.len.toNat []) 0 ((d.forEach it fun _ => true).map Prod.fst))

structure Draw (β : Type) where
  random : Nat
  it : Iteration β

/-- The first key of the loop, or the empty string for a shard without one. -/
def randomKey (it : Iteration β) (shard : GoMap β) : Bytes := (it.keys shard).headD []

def intn (random n : Nat) : Nat := random % n

def drawKey (d : ConcurrentDict β) (draw : Draw β) : Option Bytes :=
  (d.getShard (UInt32.ofNat (intn draw.random d.table.length))).map (randomKey draw.it)

/-- None is also a loop that needs more draws than are given. -/
def randomKeysLoop (d : ConcurrentDict β) (limit : Nat) : List (Draw β) → List Bytes → Option (List Bytes)
  | [], result => if limit ≤ result.length then some result else none
  | draw :: draws, result =>
      if limit ≤ result.length then some result
      else (d.drawKey draw).bind fun key =>
        randomKeysLoop d limit draws (if key ≠ [] then result ++ [key] else result)

def randomKeys (d : ConcurrentDict β) (it : Iteration β) (draws : List (Draw β)) (limit : Int) :
    Option (List Bytes) :=
  if d.len ≤ limit then d.keys it
  else if limit < 0 then none
  else randomKeysLoop d limit.toNat draws []

def randomDistinctKeysLoop (d : ConcurrentDict β) (limit : Int) :
    List (Draw β) → GoMap Bool → Option (GoMap Bool)
  | [], result => if (result.keys.card : Int) < limit then none else some result
  | draw :: draws, result =>
      if (result.keys.card : Int) < limit then
        (d.drawKey draw).bind fun key =>
          randomDistinctKeysLoop d limit draws (if key ≠ [] then result.insert key true else result)
      else some result

/-- Every key is put at the first place of the slice. -/
def distinctKeys (it : Iteration Bool) (result : GoMap Bool) : List Bytes :=
  (it.keys result).foldl (fun arr key => arr.set 0 key) (List.replicate result.keys.card [])

def randomDistinctKeys (d : ConcurrentDict β) (it : Iteration β) (draws : List (Draw β))
    (it' : Iteration Bool) (limit : Int) : Option (List Bytes) :=
  if d.len ≤ limit then d.keys it
  else (randomDistinctKeysLoop d limit draws ∅).map (distinctKeys it')

def clear (maxAlloc : Nat) (d : ConcurrentDict β) : Option (ConcurrentDict β) :=
  makeConcurrentDict maxAlloc d.shardCount

end ConcurrentDict

end Traitor.Dicts
