import Mathlib.Data.Nat.Size
import Mathlib.Logic.Function.Basic
import Mathlib.Order.Lattice
import Traitor.Basic

namespace Traitor

inductive Inf
  | negativeInf
  | finite
  | positiveInf
deriving DecidableEq

structure ScoreBorder (σ : Type) where
  inf : Inf
  value : σ
  exclude : Bool

abbrev Addr := Nat

/-- The nodes of the list by address, with a function for each field: `height` is
the length of the level slice, `forward` and `span` are the fields of its entries,
and `fresh` is the next free address. -/
structure SkipList (σ μ : Type) where
  score : Addr → σ
  member : Addr → μ
  backward : Addr → Option Addr
  height : Addr → Nat
  forward : Addr → Nat → Option Addr
  span : Addr → Nat → Int
  tail : Option Addr
  length : Int
  level : Nat
  fresh : Addr

structure SortedSet (σ μ : Type) where
  dict : μ → Option σ
  skipList : SkipList σ μ

namespace ScoreBorder

variable {σ : Type} [LinearOrder σ]

def greater (border : ScoreBorder σ) (value : σ) : Bool :=
  match border.inf with
  | .negativeInf => false
  | .positiveInf => true
  | .finite => if border.exclude then border.value > value else border.value ≥ value

def less (border : ScoreBorder σ) (value : σ) : Bool :=
  match border.inf with
  | .negativeInf => true
  | .positiveInf => false
  | .finite => if border.exclude then border.value < value else border.value ≤ value

def positiveInfBorder [Inhabited σ] : ScoreBorder σ := ⟨.positiveInf, default, false⟩

def negativeInfBorder [Inhabited σ] : ScoreBorder σ := ⟨.negativeInf, default, false⟩

end ScoreBorder

namespace SkipList

variable {σ μ : Type}

def maxLevel : Nat := 16

def randomLevel (draw : UInt64) : Nat := maxLevel - Nat.size (draw.toNat % (2 ^ maxLevel - 1)) + 1

theorem one_le_randomLevel (draw : UInt64) : 1 ≤ randomLevel draw := Nat.succ_le_succ (Nat.zero_le _)

/-- A multiple of the modulus has no bits. -/
theorem randomLevel_le (draw : UInt64) : randomLevel draw ≤ maxLevel ↔ draw.toNat % 65535 ≠ 0 := by
  rw [randomLevel, show draw.toNat % (2 ^ maxLevel - 1) = draw.toNat % 65535 from rfl]
  have hsize : Nat.size (draw.toNat % 65535) = 0 ↔ draw.toNat % 65535 = 0 := Nat.size_eq_zero
  rw [maxLevel]
  omega

/-- The height falls with the bits of the random number. -/
theorem randomLevel_of {draw : UInt64} {n : Nat} (hlow : 2 ^ n ≤ draw.toNat % 65535)
    (hhigh : draw.toNat % 65535 < 2 ^ (n + 1)) : randomLevel draw = maxLevel - n := by
  have hsize : Nat.size (draw.toNat % 65535) = n + 1 :=
    le_antisymm (Nat.size_le.mpr hhigh) (Nat.lt_size.mpr hlow)
  have hn : n < 16 := (Nat.pow_lt_pow_iff_right (by decide)).mp (show 2 ^ n < 2 ^ 16 by omega)
  rw [randomLevel, show draw.toNat % (2 ^ maxLevel - 1) = draw.toNat % 65535 from rfl, hsize, maxLevel]
  omega

theorem randomLevel_lowest : randomLevel 65534 = 1 := randomLevel_of (n := 15) (by decide) (by decide)

theorem randomLevel_second : randomLevel 32767 = 2 := randomLevel_of (n := 14) (by decide) (by decide)

def header : Addr := 0

def makeSkipList [Inhabited σ] [Inhabited μ] : SkipList σ μ where
  score _ := default
  member _ := default
  backward _ := none
  height a := if a = header then maxLevel else 0
  forward _ _ := none
  span _ _ := 0
  tail := none
  length := 0
  level := 1
  fresh := header + 1

/-- Follows the links of one level while the condition holds of the rank of the
next node and the node. None is an index out of the range of the level slice. -/
def walk (s : SkipList σ μ) (cond : Int → Addr → Bool) (i : Nat) :
    Nat → Addr → Int → Option (Addr × Int)
  | 0, _, _ => none
  | fuel + 1, node, rank =>
      if s.height node ≤ i then none
      else match s.forward node i with
        | none => some (node, rank)
        | some next =>
            if cond (rank + s.span node i) next then
              walk s cond i fuel next (rank + s.span node i)
            else some (node, rank)

/-- The last node of each level before the condition fails, with its rank, from
the top level down. Above the level of the list these are the header and 0. -/
def search (s : SkipList σ μ) (cond : Int → Addr → Bool) :
    Nat → Addr → Int → Option (Nat → Addr × Int)
  | 0, _, _ => some fun _ => (header, 0)
  | i + 1, node, rank => do
      let (node, rank) ← walk s cond i (s.length.toNat + 1) node rank
      let found ← search s cond i node rank
      some (Function.update found i (node, rank))

def shrink (forward : Nat → Option Addr) : Nat → Nat
  | 0 => 0
  | 1 => 1
  | n + 2 => if forward (n + 1) = none then shrink forward (n + 1) else n + 2

/-- On the levels that the list does not have yet the header spans all of it. -/
def extendSpan (s : SkipList σ μ) (level : Nat) (a : Addr) (i : Nat) : Int :=
  if s.level ≤ i ∧ i < level ∧ a = header then s.length else s.span a i

def link (s : SkipList σ μ) (member : μ) (score : σ) (level : Nat) (update : Nat → Addr)
    (rank : Nat → Int) : SkipList σ μ :=
  let node := s.fresh
  let next := s.forward (update 0) 0
  { score := Function.update s.score node score
    member := Function.update s.member node member
    height := Function.update s.height node level
    forward := fun a i =>
      if level ≤ i then if a = node then none else s.forward a i
      else if a = node then s.forward (update i) i
      else if a = update i then some node
      else s.forward a i
    span := fun a i =>
      if level ≤ i then
        if i < s.level ∧ a = update i then s.span a i + 1 else s.span a i
      else if a = node then extendSpan s level (update i) i - (rank 0 - rank i)
      else if a = update i then rank 0 - rank i + 1
      else s.span a i
    backward :=
      let backward := Function.update s.backward node
        (if update 0 = header then none else some (update 0))
      match next with
      | none => backward
      | some next => Function.update backward next (some node)
    tail := if next = none then some node else s.tail
    length := s.length + 1
    level := max s.level level
    fresh := s.fresh + 1 }

/-- The level slices of the found nodes and of the removed one must be long enough. -/
def removable (s : SkipList σ μ) (node : Addr) (update : Nat → Addr) : Bool :=
  0 < s.height node && (List.range s.level).all fun i =>
    i < s.height (update i) && (s.forward (update i) i ≠ some node || i < s.height node)

def unlink (s : SkipList σ μ) (node : Addr) (update : Nat → Addr) : SkipList σ μ :=
  let forward a i :=
    if i < s.level ∧ a = update i ∧ s.forward a i = some node then s.forward node i
    else s.forward a i
  { s with
    forward := forward
    span := fun a i =>
      if i < s.level ∧ a = update i then
        if s.forward a i = some node then s.span a i + (s.span node i - 1) else s.span a i - 1
      else s.span a i
    backward :=
      match s.forward node 0 with
      | none => s.backward
      | some next => Function.update s.backward next (s.backward node)
    tail := if s.forward node 0 = none then s.backward node else s.tail
    length := s.length - 1
    level := shrink (forward header) s.level }

/-- When the level is above the maximal one, the spans of the header are set before the arrays of
found nodes are too short. -/
def insertPanicked (s : SkipList σ μ) : SkipList σ μ := { s with span := extendSpan s maxLevel }

def removeNode (s : SkipList σ μ) (node : Addr) (update : Nat → Addr) : Option (SkipList σ μ) :=
  if removable s node update then some (unlink s node update) else none

/-- The removals of a range, one node after the other, while the condition holds of
the number of removed nodes and the next node. -/
def removeRun (update : Nat → Addr) (cond : Nat → Addr → Bool) :
    Nat → SkipList σ μ → Option Addr → Nat → Option (SkipList σ μ × List (μ × σ))
  | _, s, none, _ => some (s, [])
  | 0, _, some _, _ => none
  | fuel + 1, s, some node, removed =>
      if cond removed node then do
        let next := s.forward node 0
        let s' ← removeNode s node update
        let (s', elements) ← removeRun update cond fuel s' next (removed + 1)
        some (s', (s.member node, s.score node) :: elements)
      else some (s, [])

/-- A search that ends at the first level whose found node and rank it stops at. The inner none is a
search through all levels. -/
def searchUntil (s : SkipList σ μ) (cond : Int → Addr → Bool) (stop : Addr → Int → Bool) :
    Nat → Addr → Int → Option (Option (Addr × Int))
  | 0, _, _ => some none
  | i + 1, node, rank => do
      let (node, rank) ← walk s cond i (s.length.toNat + 1) node rank
      if stop node rank then some (some (node, rank)) else searchUntil s cond stop i node rank

def getByRank (s : SkipList σ μ) (rank : Int) : Option (Option Addr) :=
  (searchUntil s (fun next _ => next ≤ rank) (fun _ i => i = rank) s.level header 0).map fun found =>
    found.map Prod.fst

def chain (s : SkipList σ μ) : Nat → Option Addr → List Addr
  | 0, _ => []
  | _ + 1, none => []
  | n + 1, some node => node :: chain s n (s.forward node 0)

def nodes (s : SkipList σ μ) : List Addr := s.chain s.length.toNat (s.forward header 0)

def element (s : SkipList σ μ) (node : Addr) : μ × σ := (s.member node, s.score node)

/-- The node behind or in front of a node. The outer none is a level slice without entries. -/
def next (s : SkipList σ μ) (desc : Bool) (node : Addr) : Option (Option Addr) :=
  if desc then some (s.backward node)
  else if s.height node = 0 then none
  else some (s.forward node 0)

def skip (s : SkipList σ μ) (desc : Bool) : Nat → Option Addr → Option (Option Addr)
  | 0, node => some node
  | _ + 1, none => some none
  | offset + 1, some node => do
      let node ← s.next desc node
      skip s desc offset node

variable {γ : Type}

/-- The consumer tells whether it goes on. None is a nil node. -/
def forEach (s : SkipList σ μ) (desc : Bool) (consumer : γ → μ × σ → γ × Bool) :
    Nat → Option Addr → γ → Option γ
  | 0, _, acc => some acc
  | _ + 1, none, _ => none
  | size + 1, some node, acc =>
      let (acc, goOn) := consumer acc (s.element node)
      if goOn then do
        let node ← s.next desc node
        forEach s desc consumer size node acc
      else some acc

variable [LinearOrder σ] [LinearOrder μ]

/-- The loop from a node of the range to its border. A negative limit is none. -/
def forEachByScore (s : SkipList σ μ) (min max : ScoreBorder σ) (limit : Int) (desc : Bool)
    (consumer : γ → μ × σ → γ × Bool) : Nat → Int → Option Addr → γ → Option γ
  | 0, _, _, _ => none
  | _ + 1, _, none, acc => some acc
  | fuel + 1, i, some node, acc =>
      if i < limit ∨ limit < 0 then
        let (acc, goOn) := consumer acc (s.element node)
        if goOn then do
          match ← s.next desc node with
          | none => some acc
          | some node =>
              if min.less (s.score node) && max.greater (s.score node) then
                forEachByScore s min max limit desc consumer fuel (i + 1) (some node) acc
              else some acc
        else some acc
      else some acc

/-- The condition of the search for a rank holds of the node itself too. -/
def upTo (s : SkipList σ μ) (member : μ) (score : σ) (a : Addr) : Bool :=
  s.score a < score || (s.score a = score && s.member a ≤ member)

/-- The header takes part in the comparison of members. The inner none is a member that is not found. -/
def getRank (s : SkipList σ μ) (member : μ) (score : σ) : Option (Option Int) :=
  (searchUntil s (fun _ a => upTo s member score a) (fun node _ => s.member node = member) s.level
    header 0).map fun found => found.map Prod.snd

def precedes (s : SkipList σ μ) (member : μ) (score : σ) (a : Addr) : Bool :=
  s.score a < score || (s.score a = score && s.member a < member)

/-- The level is the random one; above the maximal level the arrays of found nodes
are too short. -/
def insert (s : SkipList σ μ) (member : μ) (score : σ) (level : Nat) : Option (SkipList σ μ) := do
  let found ← search s (fun _ a => precedes s member score a) s.level header 0
  if level = 0 ∨ maxLevel < level then none
  else some (link s member score level (fun i => (found i).1) (fun i => (found i).2))

def remove (s : SkipList σ μ) (member : μ) (score : σ) : Option (SkipList σ μ × Bool) := do
  let found ← search s (fun _ a => precedes s member score a) s.level header 0
  match s.forward (found 0).1 0 with
  | none => some (s, false)
  | some node =>
      if score = s.score node ∧ s.member node = member then
        (removeNode s node (fun i => (found i).1)).map (·, true)
      else some (s, false)

/-- A limit that is not positive is none. -/
def removeRangeByScore (s : SkipList σ μ) (min max : ScoreBorder σ) (limit : Int) :
    Option (SkipList σ μ × List (μ × σ)) := do
  let found ← search s (fun _ a => !min.less (s.score a)) s.level header 0
  removeRun (fun i => (found i).1)
    (fun removed a => max.greater (s.score a) && !(0 < limit && removed = limit))
    (s.length.toNat + 1) s (s.forward (found 0).1 0) 0

/-- Ranks count from 1, and the last one is not removed. -/
def removeRangeByRank (s : SkipList σ μ) (start stop : Int) :
    Option (SkipList σ μ × List (μ × σ)) := do
  let found ← search s (fun rank _ => rank < start) s.level header 0
  removeRun (fun i => (found i).1) (fun removed _ => (found 0).2 + 1 + removed < stop)
    (s.length.toNat + 1) s (s.forward (found 0).1 0) 0

def hasInRange (s : SkipList σ μ) (min max : ScoreBorder σ) : Bool :=
  if min.value > max.value ∨ (min.value = max.value ∧ (min.exclude ∨ max.exclude)) then false
  else
    match s.forward header 0, s.tail with
    | some first, some tail => min.less (s.score tail) && max.greater (s.score first)
    | _, _ => false

/-- The outer none is a panic. -/
def getFirstInScoreRange (s : SkipList σ μ) (min max : ScoreBorder σ) : Option (Option Addr) :=
  if hasInRange s min max then do
    let found ← search s (fun _ a => !min.less (s.score a)) s.level header 0
    let node ← s.forward (found 0).1 0
    if max.greater (s.score node) then some (some node) else some none
  else some none

def getLastInScoreRange (s : SkipList σ μ) (min max : ScoreBorder σ) : Option (Option Addr) :=
  if hasInRange s min max then do
    let found ← search s (fun _ a => max.greater (s.score a)) s.level header 0
    if min.less (s.score (found 0).1) then some (some (found 0).1) else some none
  else some none

end SkipList

namespace SortedSet

variable {σ μ γ : Type}

def make [Inhabited σ] [Inhabited μ] : SortedSet σ μ := ⟨fun _ => none, SkipList.makeSkipList⟩

variable [LinearOrder σ] [LinearOrder μ]

def add (s : SortedSet σ μ) (member : μ) (score : σ) (level : Nat) : Option (SortedSet σ μ × Bool) :=
  let dict := Function.update s.dict member (some score)
  match s.dict member with
  | some old =>
      if score ≠ old then do
        let (skipList, _) ← s.skipList.remove member old
        let skipList ← skipList.insert member score level
        some (⟨dict, skipList⟩, false)
      else some (⟨dict, s.skipList⟩, false)
  | none => do
      let skipList ← s.skipList.insert member score level
      some (⟨dict, skipList⟩, true)

/-- What is left when the node of the insertion is too high. -/
def addPanicked (s : SortedSet σ μ) (member : μ) (score : σ) : Option (SortedSet σ μ) := do
  let dict := Function.update s.dict member (some score)
  match s.dict member with
  | some old =>
      let (skipList, _) ← s.skipList.remove member old
      some ⟨dict, skipList.insertPanicked⟩
  | none => some ⟨dict, s.skipList.insertPanicked⟩

def len (s : SortedSet σ μ) : Int := s.skipList.length

def elements (s : SortedSet σ μ) : List (μ × σ) :=
  s.skipList.nodes.map s.skipList.element

def remove (s : SortedSet σ μ) (member : μ) : Option (SortedSet σ μ × Bool) :=
  match s.dict member with
  | none => some (s, false)
  | some score => do
      let (skipList, _) ← s.skipList.remove member score
      some (⟨Function.update s.dict member none, skipList⟩, true)

def getRank (s : SortedSet σ μ) (member : μ) (desc : Bool) : Option Int :=
  match s.dict member with
  | none => some (-1)
  | some score => do
      match ← s.skipList.getRank member score with
      | none => some (-1)
      | some rank => some (if desc then s.skipList.length - rank else rank - 1)

/-- Positions that are illegal panic. -/
def forEach (s : SortedSet σ μ) (start stop : Int) (desc : Bool) (consumer : γ → μ × σ → γ × Bool)
    (acc : γ) : Option γ :=
  let size := s.len
  if start < 0 ∨ size ≤ start then none
  else if stop < start ∨ size < stop then none
  else do
    let node ←
      if desc then if 0 < start then s.skipList.getByRank (size - start) else some s.skipList.tail
      else if 0 < start then s.skipList.getByRank (start + 1)
      else some (s.skipList.forward SkipList.header 0)
    s.skipList.forEach desc consumer (stop - start).toNat node acc

/-- A slice of a negative size panics too. -/
def range (s : SortedSet σ μ) (start stop : Int) (desc : Bool) : Option (List (μ × σ)) :=
  if stop - start < 0 then none
  else s.forEach start stop desc (fun slice element => (slice ++ [element], true)) []

def count (s : SortedSet σ μ) (min max : ScoreBorder σ) : Option Int :=
  s.forEach 0 s.len false (fun i element =>
    if min.less element.2 = false then (i, true)
    else if max.greater element.2 = false then (i, false)
    else (i + 1, true)) 0

def forEachByScore (s : SortedSet σ μ) (min max : ScoreBorder σ) (offset limit : Int) (desc : Bool)
    (consumer : γ → μ × σ → γ × Bool) (acc : γ) : Option γ := do
  let node ←
    if desc then s.skipList.getLastInScoreRange min max else s.skipList.getFirstInScoreRange min max
  let node ← s.skipList.skip desc offset.toNat node
  s.skipList.forEachByScore min max limit desc consumer (s.skipList.length.toNat + 1) 0 node acc

def rangeByScore (s : SortedSet σ μ) (min max : ScoreBorder σ) (offset limit : Int) (desc : Bool) :
    Option (List (μ × σ)) :=
  if limit = 0 ∨ offset < 0 then some []
  else s.forEachByScore min max offset limit desc (fun slice element => (slice ++ [element], true)) []

def deleteAll (dict : μ → Option σ) (removed : List (μ × σ)) : μ → Option σ :=
  removed.foldl (fun dict element => Function.update dict element.1 none) dict

def removeByScore (s : SortedSet σ μ) (min max : ScoreBorder σ) : Option (SortedSet σ μ × Nat) := do
  let (skipList, removed) ← s.skipList.removeRangeByScore min max 0
  some (⟨deleteAll s.dict removed, skipList⟩, removed.length)

def removeByRank (s : SortedSet σ μ) (start stop : Int) : Option (SortedSet σ μ × Nat) := do
  let (skipList, removed) ← s.skipList.removeRangeByRank (wrap64 (start + 1)) (wrap64 (stop + 1))
  some (⟨deleteAll s.dict removed, skipList⟩, removed.length)

/-- The result is nil on an empty set. -/
def popMin [Inhabited σ] (s : SortedSet σ μ) (count : Int) :
    Option (SortedSet σ μ × Option (List (μ × σ))) := do
  match ← s.skipList.getFirstInScoreRange .negativeInfBorder .positiveInfBorder with
  | none => some (s, none)
  | some first =>
      let border : ScoreBorder σ := ⟨.finite, s.skipList.score first, false⟩
      let (skipList, removed) ← s.skipList.removeRangeByScore border .positiveInfBorder count
      some (⟨deleteAll s.dict removed, skipList⟩, some removed)

def popMax (s : SortedSet σ μ) (count : Int) : Option (SortedSet σ μ × List (μ × σ)) := do
  let length := s.skipList.length
  let (skipList, removed) ←
    s.skipList.removeRangeByRank (wrap64 (length - wrap64 (count - 1))) (wrap64 (length + 1))
  some (⟨deleteAll s.dict removed, skipList⟩, removed)

end SortedSet

end Traitor
