import Traitor.Router

namespace Traitor.Sequences

open Database Lib.Effects Lib.Strconv Protocol

/-- The interface of lists, read on the sequence that a list denotes. -/
def position (l : List Slice) (index : Int) : Option Nat :=
  if 0 ≤ index ∧ index < l.length then some index.toNat else none

/-- None is a panic, here and in the other operations. -/
def get (l : List Slice) (index : Int) : Option Slice := (position l index).bind (l[·]?)

def set (l : List Slice) (index : Int) (val : Slice) : Option (List Slice) :=
  (position l index).map (l.set · val)

def insert (l : List Slice) (index : Int) (val : Slice) : Option (List Slice) :=
  if index = l.length then some (l ++ [val]) else (position l index).map (l.insertIdx · val)

def remove (l : List Slice) (index : Int) : Option (List Slice × Slice) :=
  (position l index).bind fun i => l[i]?.map (l.eraseIdx i, ·)

/-- The nil of an empty list is the nil slice. -/
def removeLast (l : List Slice) : List Slice × Slice := (l.dropLast, l.getLast?.join)

/-- A value of the database, where the values that are no lists may be anything. -/
inductive Entity (ε : Type)
  | list (l : List Slice)
  | other (entity : ε)

structure World (ε : Type) where
  data : Dict (Entity ε)
  ttlMap : Dict Int
  aof : List CmdLine

abbrev Exec (ε α : Type) := Program (World ε) α

variable {ε : Type}

namespace World

def put (w : World ε) (key : Bytes) (l : List Slice) : World ε :=
  { w with data := w.data.insert key (.list l) }

def remove (w : World ε) (key : Bytes) : World ε :=
  { w with data := w.data.erase key, ttlMap := w.ttlMap.erase key }

def isExpired (w : World ε) (now : Int) (key : Bytes) : Bool :=
  match w.ttlMap.lookup key with
  | none => false
  | some expireTime => expireTime < now

end World

def addAof (line : CmdLine) : Exec ε PUnit := modify fun w => { w with aof := w.aof ++ [line] }

def putList (key : Bytes) (l : List Slice) : Exec ε PUnit := modify (·.put key l)

def removeKey (key : Bytes) : Exec ε PUnit := modify (·.remove key)

section

variable (now : Int)

def isExpired (key : Bytes) : Exec ε Bool := do
  let expired := (← MonadState.get).isExpired now key
  if expired then
    removeKey key
    return true
  else return false

def getEntity (key : Bytes) : Exec ε (Option (Entity ε)) := do
  match (← MonadState.get).data.lookup key with
  | none => return none
  | some entity => if ← isExpired now key then return none else return some entity

def getAsList (key : Bytes) : Exec ε (Except Reply (Option (List Slice))) := do
  match ← getEntity now key with
  | none => return .ok none
  | some (.other _) => return .error .wrongTypeErr
  | some (.list l) => return .ok (some l)

def getOrInitList (key : Bytes) : Exec ε (Except Reply (List Slice)) := do
  match ← getAsList now key with
  | .error e => return .error e
  | .ok (some l) => return .ok l
  | .ok none =>
      putList key []
      return .ok []

end

def removeEmpty (key : Bytes) (l : List Slice) : Exec ε PUnit :=
  if l.length = 0 then removeKey key else return ⟨⟩

def insertFront (key : Bytes) (l : List Slice) : List Slice → Exec ε (List Slice)
  | [] => return l
  | value :: values =>
      match insert l 0 value with
      | none => panics
      | some l => do
          putList key l
          insertFront key l values

def addBack (key : Bytes) (l : List Slice) : List Slice → Exec ε (List Slice)
  | [] => return l
  | value :: values => do
      putList key (l ++ [value])
      addBack key (l ++ [value]) values

def currentList (key : Bytes) (l : List Slice) : Exec ε (List Slice) := do
  match (← MonadState.get).data.lookup key with
  | some (.list l) => return l
  | _ => return l

section

variable (now : Int)

def execLPop : List Slice → Exec ε Reply
  | key :: rest => do
      match ← getAsList now (text key) with
      | .error e => return e
      | .ok none => return .nullBulk
      | .ok (some l) =>
          match remove l 0 with
          | none => panics
          | some (l, val) =>
              putList (text key) l
              removeEmpty (text key) l
              addAof (cmdLine3 "lpop" (key :: rest))
              return .bulk val
  | [] => panics

def execLPush : List Slice → Exec ε Reply
  | key :: values => do
      match ← getOrInitList now (text key) with
      | .error e => return e
      | .ok l =>
          let l ← insertFront (text key) l values
          addAof (cmdLine3 "lpush" (key :: values))
          return .int l.length
  | [] => panics

def execLPushX : List Slice → Exec ε Reply
  | key :: values => do
      match ← getAsList now (text key) with
      | .error e => return e
      | .ok none => return .int 0
      | .ok (some l) =>
          let l ← insertFront (text key) l values
          addAof (cmdLine3 "lpushx" (key :: values))
          return .int l.length
  | [] => panics

def execLSet : List Slice → Exec ε Reply
  | key :: rawIndex :: value :: rest => do
      match parseInt 64 (text rawIndex) with
      | none => return notInteger
      | some index =>
          match ← getAsList now (text key) with
          | .error e => return e
          | .ok none => return errReply "ERR no such key"
          | .ok (some l) =>
              match elementIndex index l.length with
              | none => return errReply "ERR index out of range"
              | some index =>
                  match set l index value with
                  | none => panics
                  | some l =>
                      putList (text key) l
                      addAof (cmdLine3 "lset" (key :: rawIndex :: value :: rest))
                      return .ok
  | _ => panics

def execRPop : List Slice → Exec ε Reply
  | key :: rest => do
      match ← getAsList now (text key) with
      | .error e => return e
      | .ok none => return .nullBulk
      | .ok (some l) =>
          let (l, val) := removeLast l
          putList (text key) l
          removeEmpty (text key) l
          addAof (cmdLine3 "rpop" (key :: rest))
          return .bulk val
  | [] => panics

def execRPopLPush : List Slice → Exec ε Reply
  | source :: dest :: rest => do
      match ← getAsList now (text source) with
      | .error e => return e
      | .ok none => return .nullBulk
      | .ok (some sourceList) =>
          match ← getOrInitList now (text dest) with
          | .error e => return e
          | .ok destList =>
              let (sourceList, val) := removeLast sourceList
              putList (text source) sourceList
              let destList ← currentList (text dest) destList
              match insert destList 0 val with
              | none => panics
              | some destList =>
                  putList (text dest) destList
                  let sourceList ← currentList (text source) sourceList
                  removeEmpty (text source) sourceList
                  addAof (cmdLine3 "rpoplpush" (source :: dest :: rest))
                  return .bulk val
  | _ => panics

def execRPush : List Slice → Exec ε Reply
  | key :: values => do
      match ← getOrInitList now (text key) with
      | .error e => return e
      | .ok l =>
          let l ← addBack (text key) l values
          addAof (cmdLine3 "rpush" (key :: values))
          return .int l.length
  | [] => panics

def execRPushX : List Slice → Exec ε Reply
  | key :: value :: values => do
      match ← getAsList now (text key) with
      | .error e => return e
      | .ok none => return .int 0
      | .ok (some l) =>
          let l ← addBack (text key) l (value :: values)
          addAof (cmdLine3 "rpushx" (key :: value :: values))
          return .int l.length
  | _ => return errReply "ERR wrong number of arguments for 'rpush' command"

def undoElement (key : Bytes) (index : Int → Option Int) (lines : Slice → List CmdLine) :
    Exec ε (List CmdLine) := do
  match ← getAsList now key with
  | .error _ => return []
  | .ok none => return []
  | .ok (some l) =>
      match index l.length with
      | none => return []
      | some i =>
          match get l i with
          | none => panics
          | some element => return lines element

def undoLPop : List Slice → Exec ε (List CmdLine)
  | key :: _ =>
      undoElement now (text key) (fun size => if size = 0 then none else some 0) fun element =>
        [cmdLine3 "LPUSH" [key, element]]
  | [] => panics

def undoLPush : List Slice → Exec ε (List CmdLine)
  | key :: values => return values.map fun _ => cmdLine "LPOP" [text key]
  | [] => panics

def undoLSet : List Slice → Exec ε (List CmdLine)
  | key :: rawIndex :: _ =>
      match parseInt 64 (text rawIndex) with
      | none => return []
      | some index =>
          undoElement now (text key) (elementIndex index) fun element =>
            [cmdLine3 "LSET" [key, rawIndex, element]]
  | _ => panics

def undoRPop : List Slice → Exec ε (List CmdLine)
  | key :: _ =>
      undoElement now (text key) lastIndex fun element => [cmdLine3 "RPUSH" [key, element]]
  | [] => panics

def undoRPopLPush : List Slice → Exec ε (List CmdLine)
  | source :: dest :: _ =>
      undoElement now (text source) lastIndex fun element =>
        [cmdLine3 "RPUSH" [source, element], cmdLine3 "LPOP" [dest]]
  | _ => panics

def undoRPush : List Slice → Exec ε (List CmdLine)
  | key :: values => return values.map fun _ => cmdLine "RPOP" [text key]
  | [] => panics

end

inductive ListCommand
  | lPush | lPushX | rPush | rPushX | lPop | rPop | rPopLPush | lSet
deriving DecidableEq

namespace ListCommand

def all : List ListCommand := [.lPush, .lPushX, .rPush, .rPushX, .lPop, .rPop, .rPopLPush, .lSet]

def commandName : ListCommand → CommandName
  | .lPush => .lPush
  | .lPushX => .lPushX
  | .rPush => .rPush
  | .rPushX => .rPushX
  | .lPop => .lPop
  | .rPop => .rPop
  | .rPopLPush => .rPopLPush
  | .lSet => .lSet

def arity : ListCommand → Int
  | .lPush | .lPushX | .rPush | .rPushX => -3
  | .lPop | .rPop => 2
  | .rPopLPush => 3
  | .lSet => 4

def executor (now : Int) : ListCommand → List Slice → Exec ε Reply
  | .lPush => execLPush now
  | .lPushX => execLPushX now
  | .rPush => execRPush now
  | .rPushX => execRPushX now
  | .lPop => execLPop now
  | .rPop => execRPop now
  | .rPopLPush => execRPopLPush now
  | .lSet => execLSet now

def undo (now : Int) : ListCommand → List Slice → Exec ε (List CmdLine)
  | .lPush | .lPushX => undoLPush
  | .rPush | .rPushX => undoRPush
  | .lPop => undoLPop now
  | .rPop => undoRPop now
  | .rPopLPush => undoRPopLPush now
  | .lSet => undoLSet now

end ListCommand

/-- The commands of the table that push to lists, pop from them or set an element. -/
def cmdTable (cmdName : Bytes) : Option ListCommand :=
  ListCommand.all.find? fun c => bytes c.commandName.name = cmdName

section

variable (now : Int)

def getUndoLogs : CmdLine → Exec ε (List CmdLine)
  | [] => panics
  | name :: args =>
      match cmdTable (toLower (text name)) with
      | none => return []
      | some c => c.undo now args

def execWithLock : CmdLine → Exec ε Reply
  | [] => panics
  | name :: args =>
      let cmdName := toLower (text name)
      match cmdTable cmdName with
      | none =>
          return .standardErr (bytes "ERR unknown command '" ++ cmdName ++ bytes "'")
      | some c =>
          if validateArity c.arity (name :: args) then c.executor now args
          else return .argNumErr cmdName

def execUndo : List CmdLine → Exec ε PUnit
  | [] => return ⟨⟩
  | line :: lines => do
      let _ ← execWithLock now line
      execUndo lines

end

end Traitor.Sequences
