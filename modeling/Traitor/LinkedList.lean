import Mathlib.Algebra.Order.Group.Int
import Traitor.Lib.Effects
import Traitor.Lib.Links

namespace Traitor

open Lib.Effects Lib.Links

/-- The nodes that were made are at the addresses below `fresh`. -/
structure LinkedList (α : Type) where
  first : Option Nat
  last : Option Nat
  size : Int
  heap : Heap Nat α
  fresh : Nat

namespace LinkedList

variable {α : Type}

abbrev Exec (α β : Type) := Program (LinkedList α) β

def empty : LinkedList α := ⟨none, none, 0, fun _ => none, 0⟩

/-- A nil pointer panics. -/
def deref : Option Nat → Exec α (Node Nat α)
  | none => panics
  | some a => do
      match (← get).heap a with
      | none => panics
      | some n => return n

def alloc (n : Node Nat α) : Exec α (Option Nat) := do
  let l ← get
  set { l with heap := Function.update l.heap l.fresh (some n), fresh := l.fresh + 1 }
  return some l.fresh

def setNext (n next : Option Nat) : Exec α PUnit := do
  let _ ← deref n
  modify fun l => { l with heap := linkNext l.heap n next }

def setPrev (n prev : Option Nat) : Exec α PUnit := do
  let _ ← deref n
  modify fun l => { l with heap := linkPrev l.heap n prev }

def setVal (n : Option Nat) (val : α) : Exec α PUnit := do
  let _ ← deref n
  modify fun l => { l with heap := putVal l.heap n val }

def setFirst (n : Option Nat) : Exec α PUnit := modify fun l => { l with first := n }

def setLast (n : Option Nat) : Exec α PUnit := modify fun l => { l with last := n }

/-- A node without another one before it is the first. -/
def setNextOrFirst (prev n : Option Nat) : Exec α PUnit :=
  match prev with
  | none => setFirst n
  | some _ => setNext prev n

def setPrevOrLast (next n : Option Nat) : Exec α PUnit :=
  match next with
  | none => setLast n
  | some _ => setPrev next n

def grow (k : Int) : Exec α PUnit := modify fun l => { l with size := l.size + k }

def add (val : α) : Exec α PUnit := do
  let n ← alloc ⟨val, none, none⟩
  match (← get).last with
  | none => do
      setFirst n
      setLast n
  | some last => do
      setNext (some last) n
      setPrev n (some last)
      setLast n
  grow 1

def make : List α → Exec α PUnit
  | [] => return
  | v :: values => do
      add v
      make values

def walkNext : Nat → Option Nat → Exec α (Option Nat)
  | 0, n => return n
  | k + 1, n => do
      let node ← deref n
      walkNext k node.next

def walkPrev : Nat → Option Nat → Exec α (Option Nat)
  | 0, n => return n
  | k + 1, n => do
      let node ← deref n
      walkPrev k node.prev

def find (index : Int) : Exec α (Option Nat) := do
  let l ← get
  if index < 0 ∨ l.size ≤ index then panics
  else if index < l.size.tdiv 2 then walkNext index.toNat l.first
  else walkPrev (l.size - 1 - index).toNat l.last

def get (index : Int) : Exec α α := do
  let n ← find index
  return (← deref n).val

def set (index : Int) (val : α) : Exec α PUnit := do
  let n ← find index
  setVal n val

def insertBefore (index : Int) (val : α) : Exec α PUnit := do
  let p ← find index
  let prev := (← deref p).prev
  let n ← alloc ⟨val, prev, p⟩
  setNextOrFirst prev n
  setPrev p n
  grow 1

/-- At the index behind the last one the value is added, and inserted before itself again. -/
def insert (index : Int) (val : α) : Exec α PUnit := do
  if index = (← MonadState.get).size then add val
  insertBefore index val

def removeNode (n : Option Nat) : Exec α PUnit := do
  let node ← deref n
  setNextOrFirst node.prev node.next
  let node ← deref n
  setPrevOrLast node.next node.prev
  setPrev n none
  setNext n none
  grow (-1)

def remove (index : Int) : Exec α α := do
  let n ← find index
  removeNode n
  return (← deref n).val

def removeLast : Exec α (Option α) := do
  match (← MonadState.get).last with
  | none => return none
  | some n => do
      removeNode (some n)
      return some (← deref (some n)).val

/-- The loops over the nodes. There are no more steps than nodes that were made: a list that
points in a circle is gone through for ever. -/
def removeAllLoop (expected : α → Bool) : Nat → Option Nat → Nat → Exec α Nat
  | _, none, removed => return removed
  | 0, some _, _ => panics
  | fuel + 1, some n, removed => do
      let node ← deref (some n)
      if expected node.val then
        removeNode (some n)
        removeAllLoop expected fuel node.next (removed + 1)
      else removeAllLoop expected fuel node.next removed

def removeAllByVal (expected : α → Bool) : Exec α Nat := do
  let l ← MonadState.get
  removeAllLoop expected l.fresh l.first 0

/-- The count is compared after each node, whether it is removed or not. -/
def removeLoop (next : Node Nat α → Option Nat) (expected : α → Bool) (count : Int) :
    Nat → Option Nat → Nat → Exec α Nat
  | _, none, removed => return removed
  | 0, some _, _ => panics
  | fuel + 1, some n, removed => do
      let node ← deref (some n)
      if expected node.val then
        removeNode (some n)
        if removed + 1 = count then return removed + 1
        else removeLoop next expected count fuel (next node) (removed + 1)
      else if removed = count then return removed
      else removeLoop next expected count fuel (next node) removed

def removeByVal (expected : α → Bool) (count : Int) : Exec α Nat := do
  let l ← MonadState.get
  removeLoop Node.next expected count l.fresh l.first 0

def reverseRemoveByVal (expected : α → Bool) (count : Int) : Exec α Nat := do
  let l ← MonadState.get
  removeLoop Node.prev expected count l.fresh l.last 0

def len : Exec α Int := return (← MonadState.get).size

/-- The values handed to the consumer, which stops the loop by answering false. -/
def forEachLoop (consumer : Nat → α → Bool) : Nat → Option Nat → Nat → Exec α (List α)
  | _, none, _ => return []
  | 0, some _, _ => panics
  | fuel + 1, some n, i => do
      let node ← deref (some n)
      if consumer i node.val then return node.val :: (← forEachLoop consumer fuel node.next (i + 1))
      else return [node.val]

def forEach (consumer : Nat → α → Bool) : Exec α (List α) := do
  let l ← MonadState.get
  forEachLoop consumer l.fresh l.first 0

def contains (expected : α → Bool) : Exec α Bool :=
  return (← forEach fun _ actual => !expected actual).any expected

/-- A value goes to its position in the list, not in the slice. -/
def rangeLoop (start stop : Int) : Nat → Option Nat → Nat → List (Option α) → Exec α (List (Option α))
  | _, none, _, slice => return slice
  | 0, some _, _, _ => panics
  | fuel + 1, some n, i, slice => do
      let node ← deref (some n)
      if start ≤ i ∧ i < stop then
        if i < slice.length then
          rangeLoop start stop fuel node.next (i + 1) (slice.set i (some node.val))
        else panics
      else if stop ≤ i then return slice
      else rangeLoop start stop fuel node.next (i + 1) slice

def range (start stop : Int) : Exec α (List (Option α)) := do
  let l ← MonadState.get
  if start < 0 ∨ l.size ≤ start then panics
  else if stop < start ∨ l.size < stop then panics
  else rangeLoop start stop l.fresh l.first 0 (List.replicate (stop - start).toNat none)

end LinkedList

end Traitor
