import Traitor.ListCommands
import Traitor.StringCommands

namespace Traitor.Database

open Lib.Effects Lib.Strconv Protocol

variable {σ : Type} [LinearOrder σ] [Inhabited σ]

namespace ZSet

def make : ZSet σ := ⟨∅, []⟩

def precedes (member : Bytes) (score : σ) (a : Node σ) : Bool :=
  a.score < score || (a.score = score && a.member < member)

def insertNode (nodes : List (Node σ)) (member : Bytes) (score : σ) (height : Nat) :
    List (Node σ) :=
  nodes.takeWhile (precedes member score) ++ ⟨score, member, height⟩ ::
    nodes.dropWhile (precedes member score)

def removeNode (nodes : List (Node σ)) (member : Bytes) (score : σ) : List (Node σ) :=
  let before := nodes.takeWhile (precedes member score)
  match nodes.dropWhile (precedes member score) with
  | [] => nodes
  | a :: after => if score = a.score ∧ a.member = member then before ++ after else nodes

/-- The set as it is left, and whether the member is a new one. A node that is too
high panics when everything but its insertion is done. -/
def add (z : ZSet σ) (member : Bytes) (score : σ) (height : Nat) : ZSet σ × Option Bool :=
  let dict := z.dict.insert member score
  let insert (nodes : List (Node σ)) (isNew : Bool) : ZSet σ × Option Bool :=
    if SkipList.maxLevel < height then (⟨dict, nodes⟩, none)
    else (⟨dict, insertNode nodes member score height⟩, some isNew)
  match z.dict.lookup member with
  | some old =>
      if score ≠ old then insert (removeNode z.nodes member old) false
      else (⟨dict, z.nodes⟩, some false)
  | none => insert z.nodes true

def len (z : ZSet σ) : Int := z.nodes.length

/-- The result is nil for a member that is not there, and said to exist. -/
def get (z : ZSet σ) (member : Bytes) : Option σ := z.dict.lookup member

def remove (z : ZSet σ) (member : Bytes) : ZSet σ × Bool :=
  match z.dict.lookup member with
  | none => (z, false)
  | some score => (⟨z.dict.erase member, removeNode z.nodes member score⟩, true)

def level (nodes : List (Node σ)) : Nat := (nodes.map Node.height).foldl max 1

/-- The last node of a level, with its rank, and the header before the first one. -/
def lastOfLevel (i : Nat) (nodes : List (Node σ)) : Bytes × Nat :=
  (nodes.zipIdx.filter fun a => i < a.1.height).getLast?.elim ([], 0) fun a =>
    (a.1.member, a.2 + 1)

/-- The levels are searched from the top one down; the nodes are those up to the
member. -/
def rankLoop (member : Bytes) (nodes : List (Node σ)) : Nat → Option Nat
  | 0 => none
  | i + 1 =>
      let last := lastOfLevel i nodes
      if last.1 = member then some last.2 else rankLoop member nodes i

def getRank (z : ZSet σ) (member : Bytes) (desc : Bool) : Int :=
  match z.dict.lookup member with
  | none => -1
  | some score =>
      let upTo (a : Node σ) : Bool :=
        a.score < score || (a.score = score && (a.member < member || a.member = member))
      match rankLoop member (z.nodes.takeWhile upTo) (level z.nodes) with
      | none => -1
      | some rank => if desc then z.len - rank else rank - 1

/-- None is a panic: a slice of a negative length or positions that are illegal. -/
def range (z : ZSet σ) (start stop : Int) (desc : Bool) : Option (List (Node σ)) :=
  if start < 0 ∨ z.len ≤ start then none
  else if stop < start ∨ z.len < stop then none
  else
    let nodes := if desc then z.nodes.reverse else z.nodes
    some ((nodes.drop start.toNat).take (stop - start).toNat)

def countLoop (min max : ScoreBorder σ) : List (Node σ) → Int
  | [] => 0
  | a :: nodes =>
      if min.less a.score = false then countLoop min max nodes
      else if max.greater a.score = false then 0
      else 1 + countLoop min max nodes

/-- The loop over no elements panics. -/
def count (z : ZSet σ) (min max : ScoreBorder σ) : Option Int :=
  if z.nodes = [] then none else some (countLoop min max z.nodes)

def hasInRange (nodes : List (Node σ)) (min max : ScoreBorder σ) : Bool :=
  if min.value > max.value ∨ (min.value = max.value ∧ (min.exclude ∨ max.exclude)) then false
  else
    match nodes.head?, nodes.getLast? with
    | some first, some tail => min.less tail.score && max.greater first.score
    | _, _ => false

def fromFirst (nodes : List (Node σ)) (min max : ScoreBorder σ) : List (Node σ) :=
  if hasInRange nodes min max then
    match nodes.dropWhile fun a => !min.less a.score with
    | [] => []
    | a :: rest => if max.greater a.score then a :: rest else []
  else []

def fromLast (nodes : List (Node σ)) (min max : ScoreBorder σ) : List (Node σ) :=
  if hasInRange nodes min max then
    match (nodes.takeWhile fun a => max.greater a.score).reverse with
    | [] => []
    | a :: rest => if min.less a.score then a :: rest else []
  else []

/-- Whether the first node after the offset is in the range is not looked at again. -/
def forEachByScore (min max : ScoreBorder σ) (limit : Int) : List (Node σ) → List (Node σ)
  | [] => []
  | a :: rest =>
      let all := a :: rest.takeWhile fun b => min.less b.score && max.greater b.score
      if limit < 0 then all else all.take limit.toNat

def rangeByScore (z : ZSet σ) (min max : ScoreBorder σ) (offset limit : Int) (desc : Bool) :
    List (Node σ) :=
  if limit = 0 ∨ offset < 0 then []
  else
    let nodes := if desc then fromLast z.nodes min max else fromFirst z.nodes min max
    forEachByScore min max limit (nodes.drop offset.toNat)

def deleteAll (dict : Dict σ) (removed : List (Node σ)) : Dict σ :=
  removed.foldl (fun dict a => dict.erase a.member) dict

def removeMiddle (z : ZSet σ) (before removed after : List (Node σ)) : ZSet σ × List (Node σ) :=
  (⟨deleteAll z.dict removed, before ++ after⟩, removed)

/-- A limit that is not positive is none. -/
def removeRangeByScore (z : ZSet σ) (min max : ScoreBorder σ) (limit : Int) :
    ZSet σ × List (Node σ) :=
  let inRange := z.nodes.dropWhile fun a => !min.less a.score
  let removed := inRange.takeWhile fun a => max.greater a.score
  let removed := if 0 < limit then removed.take limit.toNat else removed
  z.removeMiddle (z.nodes.takeWhile fun a => !min.less a.score) removed
    (inRange.drop removed.length)

def removeByScore (z : ZSet σ) (min max : ScoreBorder σ) : ZSet σ × List (Node σ) :=
  z.removeRangeByScore min max 0

/-- Ranks count from 1, and the last one is not removed. -/
def removeRangeByRank (z : ZSet σ) (start stop : Int) : ZSet σ × List (Node σ) :=
  let before := z.nodes.take (start - 1).toNat
  let rest := z.nodes.drop (start - 1).toNat
  let removed := rest.take (stop - (before.length + 1)).toNat
  z.removeMiddle before removed (rest.drop removed.length)

def removeByRank (z : ZSet σ) (start stop : Int) : ZSet σ × List (Node σ) :=
  z.removeRangeByRank (start + 1) (stop + 1)

def popMin (z : ZSet σ) (count : Int) : ZSet σ × List (Node σ) :=
  match fromFirst z.nodes .negativeInfBorder .positiveInfBorder with
  | [] => (z, [])
  | first :: _ => z.removeRangeByScore ⟨.finite, first.score, false⟩ .positiveInfBorder count

end ZSet

variable (env : Env σ)

def Entity.asSortedSet : Entity σ → Option (ZSet σ)
  | .zset z => some z
  | _ => none

def getAsSortedSet (key : Bytes) : Exec σ (Except Reply (Option (ZSet σ))) :=
  getAs env Entity.asSortedSet key

abbrev setSortedSet (key : Bytes) (z : ZSet σ) : Exec σ PUnit := putEntity key (.zset z)

def getOrInitSortedSet : Bytes → Exec σ (Except Reply (ZSet σ)) :=
  getOrInit env Entity.asSortedSet .zset ZSet.make

def parseElements : List Slice → Option (List (Bytes × σ))
  | score :: member :: rest => do
      let score ← env.lib.parseFloat (text score)
      let elements ← parseElements rest
      return (text member, score) :: elements
  | _ => some []

def addElement (key : Bytes) (z : ZSet σ) (member : Bytes) (score : σ) (height : Nat) :
    Exec σ (ZSet σ × Bool) := do
  let (z, isNew) := z.add member score height
  setSortedSet key z
  match isNew with
  | none => panics
  | some isNew => return (z, isNew)

def addElements (key : Bytes) (z : ZSet σ) (i : Nat) : List (Bytes × σ) → Exec σ Int
  | [] => return 0
  | (member, score) :: elements => do
      let (z, isNew) ← addElement key z member score (env.choices.height i)
      let added ← addElements key z (i + 1) elements
      return (if isNew then 1 else 0) + added

def execZAdd : List Slice → Exec σ Reply
  | key :: rest => do
      if (key :: rest).length % 2 ≠ 1 then return .syntaxErr
      else
        match parseElements env rest with
        | none => return notFloat
        | some elements =>
            match ← getOrInitSortedSet env (text key) with
            | .error e => return e
            | .ok z => return .int (← addElements env (text key) z 0 elements)
  | [] => return .syntaxErr

def execZScore : List Slice → Exec σ Reply
  | key :: member :: _ => do
      match ← getAsSortedSet env (text key) with
      | .error e => return e
      | .ok none => return .nullBulk
      | .ok (some z) =>
          match z.get (text member) with
          | none => panics
          | some score => return .bulk (some (env.lib.formatFloat score))
  | _ => panics

def rankCommand (desc : Bool) : List Slice → Exec σ Reply
  | key :: member :: _ => do
      match ← getAsSortedSet env (text key) with
      | .error e => return e
      | .ok none => return .nullBulk
      | .ok (some z) =>
          let rank := z.getRank (text member) desc
          if rank < 0 then return .nullBulk else return .int rank
  | _ => panics

def execZRank : List Slice → Exec σ Reply := rankCommand env false

def execZRevRank : List Slice → Exec σ Reply := rankCommand env true

def execZCard : List Slice → Exec σ Reply
  | key :: _ => do
      match ← getAsSortedSet env (text key) with
      | .error e => return e
      | .ok none => return .int 0
      | .ok (some z) => return .int z.len
  | [] => panics

def scored (withScores : Bool) (nodes : List (Node σ)) : Reply :=
  if withScores then
    .multiBulk (nodes.flatMap fun a => [some a.member, some (env.lib.formatFloat a.score)])
  else .multiBulk (nodes.map fun a => some a.member)

def range0 (key : Bytes) (start stop : Int) (withScores desc : Bool) : Exec σ Reply := do
  match ← getAsSortedSet env key with
  | .error e => return e
  | .ok none => return .emptyMultiBulk
  | .ok (some z) =>
      match sliceRange start stop z.len with
      | none => return .emptyMultiBulk
      | some (start, stop) =>
          match z.range start stop desc with
          | none => panics
          | some nodes => return scored env withScores nodes

def rangeArgs (key rawStart rawStop : Slice) (withScores desc : Bool) : Exec σ Reply :=
  match parseInt 64 (text rawStart) with
  | none => return notInteger
  | some start =>
      match parseInt 64 (text rawStop) with
      | none => return notInteger
      | some stop => range0 env (text key) start stop withScores desc

def execZRange : List Slice → Exec σ Reply
  | [key, start, stop] => rangeArgs env key start stop false false
  | [key, start, stop, option] =>
      if toUpper (text option) = bytes "WITHSCORES" then rangeArgs env key start stop true false
      else return errReply "syntax error"
  | _ => return errReply "ERR wrong number of arguments for 'zrange' command"

/-- The option is only known in upper case. -/
def execZRevRange : List Slice → Exec σ Reply
  | [key, start, stop] => rangeArgs env key start stop false true
  | [key, start, stop, option] =>
      if text option = bytes "WITHSCORES" then rangeArgs env key start stop true true
      else return errReply "syntax error"
  | _ => return errReply "ERR wrong number of arguments for 'zrevrange' command"

def notBorder : Reply := errReply "ERR min or max is not a float"

/-- None is the panic on an empty text, and `some none` a text that is no number. -/
def parseScoreBorder (s : Bytes) : Option (Option (ScoreBorder σ)) :=
  if s = bytes "inf" ∨ s = bytes "+inf" then some (some .positiveInfBorder)
  else if s = bytes "-inf" then some (some .negativeInfBorder)
  else
    match s with
    | [] => none
    | b :: rest =>
        if b = 40 then some ((env.lib.parseFloat rest).map fun value => ⟨.finite, value, true⟩)
        else some ((env.lib.parseFloat s).map fun value => ⟨.finite, value, false⟩)

/-- The borders are parsed in the order of the arguments `first` and `second`. -/
def borders (first second : Slice) : Exec σ (Except Reply (ScoreBorder σ × ScoreBorder σ)) :=
  match parseScoreBorder env (text first) with
  | none => panics
  | some none => return .error notBorder
  | some (some first) =>
      match parseScoreBorder env (text second) with
      | none => panics
      | some none => return .error notBorder
      | some (some second) => return .ok (first, second)

def execZCount : List Slice → Exec σ Reply
  | key :: rawMin :: rawMax :: _ => do
      match ← borders env rawMin rawMax with
      | .error e => return e
      | .ok (min, max) =>
          match ← getAsSortedSet env (text key) with
          | .error e => return e
          | .ok none => return .int 0
          | .ok (some z) =>
              match z.count min max with
              | none => panics
              | some n => return .int n
  | _ => panics

def rangeByScore0 (key : Bytes) (min max : ScoreBorder σ) (offset limit : Int)
    (withScores desc : Bool) : Exec σ Reply := do
  match ← getAsSortedSet env key with
  | .error e => return e
  | .ok none => return .emptyMultiBulk
  | .ok (some z) => return scored env withScores (z.rangeByScore min max offset limit desc)

def rangeOptions (withScores : Bool) (offset limit : Int) :
    List Slice → Except Reply (Bool × Int × Int)
  | [] => .ok (withScores, offset, limit)
  | option :: rest =>
      if toUpper (text option) = bytes "WITHSCORES" then rangeOptions true offset limit rest
      else if toUpper (text option) = bytes "LIMIT" then
        match rest with
        | rawOffset :: rawLimit :: rest =>
            match parseInt 64 (text rawOffset) with
            | none => .error notInteger
            | some offset =>
                match parseInt 64 (text rawLimit) with
                | none => .error notInteger
                | some limit => rangeOptions withScores offset limit rest
        | _ => .error (errReply "ERR syntax error")
      else .error (errReply "ERR syntax error")

def rangeByScoreArgs (key : Slice) (min max : ScoreBorder σ) (options : List Slice) (desc : Bool) :
    Exec σ Reply :=
  match rangeOptions false 0 (-1) options with
  | .error e => return e
  | .ok (withScores, offset, limit) =>
      rangeByScore0 env (text key) min max offset limit withScores desc

def rangeByScoreArity : Reply := errReply "ERR wrong number of arguments for 'zrangebyscore' command"

def execZRangeByScore : List Slice → Exec σ Reply
  | key :: rawMin :: rawMax :: options => do
      match ← borders env rawMin rawMax with
      | .error e => return e
      | .ok (min, max) => rangeByScoreArgs env key min max options false
  | _ => return rangeByScoreArity

/-- The larger border comes first, and the smaller one is parsed first. -/
def execZRevRangeByScore : List Slice → Exec σ Reply
  | key :: rawMax :: rawMin :: options => do
      match ← borders env rawMin rawMax with
      | .error e => return e
      | .ok (min, max) => rangeByScoreArgs env key min max options true
  | _ => return rangeByScoreArity

/-- A line is handed on when elements were removed. -/
def logRemoved (name : String) (args : List Slice) (removed : List (Node σ)) : Exec σ PUnit :=
  if removed = [] then return ⟨⟩ else addAof (cmdLine3 name args)

def execZRemRangeByScore : List Slice → Exec σ Reply
  | [key, rawMin, rawMax] => do
      match ← borders env rawMin rawMax with
      | .error e => return e
      | .ok (min, max) =>
          match ← getAsSortedSet env (text key) with
          | .error e => return e
          | .ok none => return .emptyMultiBulk
          | .ok (some z) =>
              let (z, removed) := z.removeByScore min max
              setSortedSet (text key) z
              logRemoved "zremrangebyscore" [key, rawMin, rawMax] removed
              return .int removed.length
  | _ => return errReply "ERR wrong number of arguments for 'zremrangebyscore' command"

def execZRemRangeByRank : List Slice → Exec σ Reply
  | key :: rawStart :: rawStop :: rest => do
      match parseInt 64 (text rawStart) with
      | none => return notInteger
      | some start =>
          match parseInt 64 (text rawStop) with
          | none => return notInteger
          | some stop =>
              match ← getAsSortedSet env (text key) with
              | .error e => return e
              | .ok none => return .int 0
              | .ok (some z) =>
                  match sliceRange start stop z.len with
                  | none => return .int 0
                  | some (start, stop) =>
                      let (z, removed) := z.removeByRank start stop
                      setSortedSet (text key) z
                      logRemoved "zremrangebyrank" (key :: rawStart :: rawStop :: rest) removed
                      return .int removed.length
  | _ => panics

def popMinCount : List Slice → Option Int
  | [] => some 1
  | rawCount :: _ => parseInt 64 (text rawCount)

def execZPopMin : List Slice → Exec σ Reply
  | key :: rest => do
      match popMinCount rest with
      | none => return notInteger
      | some count =>
          match ← getAsSortedSet env (text key) with
          | .error e => return e
          | .ok none => return .emptyMultiBulk
          | .ok (some z) =>
              let (z, removed) := z.popMin count
              setSortedSet (text key) z
              logRemoved "zpopmin" (key :: rest) removed
              return scored env true removed
  | [] => panics

def removeElements (z : ZSet σ) : List Bytes → ZSet σ × Int
  | [] => (z, 0)
  | member :: members =>
      let (z, removed) := z.remove member
      let (z, deleted) := removeElements z members
      (z, (if removed then 1 else 0) + deleted)

def execZRem : List Slice → Exec σ Reply
  | key :: fields => do
      match ← getAsSortedSet env (text key) with
      | .error e => return e
      | .ok none => return .int 0
      | .ok (some z) =>
          let (z, deleted) := removeElements z (fields.map text)
          setSortedSet (text key) z
          if 0 < deleted then addAof (cmdLine3 "zrem" (key :: fields))
          return .int deleted
  | [] => panics

/-- The member always seems to be there; the score of one that is not is read
through nil. -/
def execZIncrBy : List Slice → Exec σ Reply
  | key :: rawDelta :: field :: rest => do
      match env.lib.parseFloat (text rawDelta) with
      | none => return notFloat
      | some delta =>
          match ← getOrInitSortedSet env (text key) with
          | .error e => return e
          | .ok z =>
              match z.get (text field) with
              | none => panics
              | some old =>
                  let score := env.lib.addFloat old delta
                  let _ ← addElement (text key) z (text field) score (env.choices.height 0)
                  addAof (cmdLine3 "zincrby" (key :: rawDelta :: field :: rest))
                  return .bulk (some (env.lib.formatFloat score))
  | _ => panics

end Traitor.Database
