import Traitor.Lib.Cells
import Traitor.Lib.LateAnswers
import Traitor.Serializability

namespace Traitor.Database

open Lib.Effects Lib.LockOrder Lib.Strconv Lib.TwoPhase Protocol Lock

/-- The bytes of a slice: whose array they were taken for, and their number in it. -/
abbrev Cell := Bytes × ℕ

/-- A database in which the strings are slices, and their bytes may be in replies and undo lines too. -/
structure Shared (σ : Type) where
  world : World σ
  memory : Lib.Cells.Memory Bytes UInt8
  stored : Bytes → List Cell

/-- The reply to a line, before it is turned into bytes. -/
inductive Result
  | own (reply : Reply)
  | bulk (slice : List Cell)
  | multiBulk (slices : List (Option (List Cell)))

namespace Result

def toReply (m : Lib.Cells.Memory Bytes UInt8) : Result → Reply
  | .own reply => reply
  | .bulk slice => .bulk (some (m.read slice))
  | .multiBulk slices => .multiBulk (slices.map (·.map m.read))

def isErrorReply : Result → Bool
  | .own reply => Protocol.isErrorReply reply
  | _ => false

end Result

inductive Answer
  | one (result : Result)
  | multiRaw (results : List Result)

/-- `ToBytes` reads the slices as they are then. -/
def Answer.toReply (m : Lib.Cells.Memory Bytes UInt8) : Answer → Reply
  | .one result => result.toReply m
  | .multiRaw results => .multiRaw (results.map (·.toReply m))

/-- An undo line, the value of which may be a slice that was stored. -/
structure SharedLine where
  line : CmdLine
  held : Option (List Cell)

def SharedLine.read (m : Lib.Cells.Memory Bytes UInt8) (u : SharedLine) : CmdLine :=
  match u.held with
  | none => u.line
  | some slice => u.line.take 2 ++ [some (m.read slice)]

section

variable {σ : Type}

def World.string (env : Env σ) (w : World σ) (key : Bytes) : Option Bytes :=
  match w.db.live env key with
  | some (.str s) => s
  | _ => none

/-- The commands that write into the slice that is stored. -/
def overwriting : List CommandName := [.setRange, .setBit]

/-- The commands that store a slice which begins with the one that was stored. -/
def growing : List CommandName := .append :: overwriting

/-- Whether a command has put a slice of its own under the keys that it writes. -/
def puts : CommandName → Option Reply → Bool
  | .set, some .ok | .setEX, some .ok | .pSetEX, some .ok | .mset, some .ok => true
  | .setNx, some (.int 1) | .mSetNX, some (.int 1) => true
  | .getSet, some r | .incr, some r | .incrBy, some r | .incrByFloat, some r | .decr, some r
  | .decrBy, some r => !isErrorReply r
  | _, _ => false

def movedFrom : CommandName → List Slice → Option Reply → Bytes → Option Bytes
  | .rename, [src, dest], some .ok, key => if key = text dest then some (text src) else none
  | .renameNx, src :: dest :: _, some (.int 1), key => if key = text dest then some (text src) else none
  | _, _, _, _ => none

namespace Shared

variable [LinearOrder σ] [Inhabited σ] (env : Env σ) (fits : Bool) (c : CommandName) (args : List Slice)
  (s : Shared σ)

/-- The bytes that `SETRANGE` and `SETBIT` change are those of the array. -/
def overwritten (w : World σ) : Lib.Cells.Memory Bytes UInt8 :=
  match args with
  | key :: _ =>
      match s.world.string env (text key), w.string env (text key) with
      | some old, some b =>
          if c ∈ overwriting then s.memory.write (s.stored (text key)) (b.take old.length) else s.memory
      | _, _ => s.memory
  | [] => s.memory

/-- The slice under a key after a command, and the bytes that are in new cells of it. `append` goes on in the
array if it is large enough. The value of an undo line is a slice already. -/
def place (held : Option (List Cell)) (reply : Option Reply) (w : World σ) (key : Bytes) :
    List Cell × List UInt8 :=
  match w.db.data.lookup key with
  | some (.str (some b)) =>
      let new := (s.memory.fresh key b.length, b)
      if c ∈ growing ∧ key ∈ (writeFirstKey args).1 then
        match s.world.string env key with
        | none => new
        | some old =>
            if fits ∨ b.length = old.length then
              (s.stored key ++ s.memory.fresh key (b.length - old.length), b.drop old.length)
            else new
      else
        match movedFrom c args reply key with
        | some src => (s.stored src, [])
        | none =>
            if puts c reply ∧ key ∈ ((command env c).prepare args).1 then
              match held with
              | some slice => (slice, [])
              | none => new
            else if s.world.string env key = some b then (s.stored key, [])
            else new
  | _ => (s.stored key, [])

def settle (held : Option (List Cell)) (reply : Option Reply) (w : World σ) : Shared σ where
  world := w
  memory := (s.overwritten env c args w).extend fun key => (s.place env fits c args held reply w key).2
  stored key := (s.place env fits c args held reply w key).1

def result (t : Shared σ) : Reply → Result
  | .bulk (some b) =>
      match c, args with
      | .get, key :: _ | .getEX, key :: _ | .getSet, key :: _ | .getDel, key :: _ => .bulk (s.stored (text key))
      | .getRange, key :: rawStart :: rawEnd :: _ =>
          match parseInt 64 (text rawStart), parseInt 64 (text rawEnd), s.world.string env (text key) with
          | some start, some end_, some old =>
              let (beg, end_) := convertRange start end_ old.length
              .bulk (((s.stored (text key)).take end_.toNat).drop beg.toNat)
          | _, _, _ => .own (.bulk (some b))
      | .incrByFloat, key :: _ => .bulk (t.stored (text key))
      | _, _ => .own (.bulk (some b))
  | .multiBulk l =>
      match c, args with
      | .mget, keys =>
          .multiBulk (keys.map fun key => (s.world.string env (text key)).map fun _ => s.stored (text key))
      | _, _ => .own (.multiBulk l)
  | reply => .own reply

def runLine (held : Option (List Cell)) (line : CmdLine) : Option Result × Shared σ :=
  let reply := value (execWithLock env line) s.world
  let w := final (execWithLock env line) s.world
  match line with
  | [] => (reply.map .own, { s with world := w })
  | name :: args =>
      match Transaction.lookupCommand env name args with
      | .error _ => (reply.map .own, { s with world := w })
      | .ok c =>
          let t := s.settle env fits c args held reply w
          (reply.map (s.result env c args t), t)

/-- `stringToCmd` puts the slice itself into its line. -/
def share (line : CmdLine) : SharedLine :=
  match line with
  | [name, key, some b] =>
      if text name = bytes "SET" ∧ s.world.string env (text key) = some b then ⟨line, some (s.stored (text key))⟩
      else ⟨line, none⟩
  | _ => ⟨line, none⟩

end Shared

end

inductive SharedProgress
  | normal (line : CmdLine)
  | multi (writeKeys : List Bytes) (cmdLines : List CmdLine) (results : List Result)
      (undoCmdLines : List (List SharedLine))
  | executing (writeKeys : List Bytes) (cmdLine : CmdLine) (cmdLines : List CmdLine)
      (results : List Result) (undo : List SharedLine) (undoCmdLines : List (List SharedLine))
  | undo (cmdLines : List SharedLine)
  | done (answer : Answer)

namespace SharedProgress

def answer : SharedProgress → Option Answer
  | .done answer => some answer
  | _ => none

def executed (result : Option Result) : SharedProgress := .done (.one (result.getD (.own .unknownErr)))

def undoFound (writeKeys : List Bytes) (cmdLine : CmdLine) (cmdLines : List CmdLine) (results : List Result)
    (undoCmdLines : List (List SharedLine)) : Option (List SharedLine) → SharedProgress
  | none => .done (.one (.own .unknownErr))
  | some lines => .executing writeKeys cmdLine cmdLines results lines undoCmdLines

def lineExecuted (writeKeys : List Bytes) (cmdLines : List CmdLine) (results : List Result)
    (undo : List SharedLine) (undoCmdLines : List (List SharedLine)) : Option Result → SharedProgress
  | none => .done (.one (.own .unknownErr))
  | some result =>
      if result.isErrorReply then .undo undoCmdLines.flatten
      else .multi writeKeys cmdLines (results ++ [result]) (undo :: undoCmdLines)

def lineUndone (cmdLines : List SharedLine) : Option Result → SharedProgress
  | none => .done (.one (.own .unknownErr))
  | some _ => .undo cmdLines

end SharedProgress

section

variable {σ : Type} [LinearOrder σ] [Inhabited σ] (env : Env σ)

def Request.startShared (r : Request) : SharedProgress :=
  match r with
  | .normal line => .normal line
  | .multi cmdLines => .multi (r.keys env).1 cmdLines [] []

def Shared.enter (r : Request) (s : Shared σ) : Shared σ := { s with world := r.enter env s.world }

def advanceShared (fits : Bool) : SharedProgress → Shared σ → SharedProgress × Shared σ
  | .normal line, s =>
      let (result, s) := s.runLine env fits none line
      (.executed result, s)
  | .multi writeKeys [] results _, s =>
      (.done (.multiRaw results), { s with world := final (addVersion writeKeys) s.world })
  | .multi writeKeys (line :: lines) results undos, s =>
      let found := value (Transaction.getUndoLogs env line) s.world
      (.undoFound writeKeys line lines results undos (found.map fun lines => lines.map (s.share env)),
        { s with world := final (Transaction.getUndoLogs env line) s.world })
  | .executing writeKeys line lines results undo undos, s =>
      let (result, s) := s.runLine env fits none line
      (.lineExecuted writeKeys lines results undo undos result, s)
  | .undo [], s => (.done (.one (.own Transaction.Connection.execAbort)), s)
  | .undo (u :: us), s =>
      let (result, s) := s.runLine env fits u.held (u.read s.memory)
      (.lineUndone us result, s)
  | .done answer, s => (.done answer, s)

/-- The requests of `protocol`, with replies that share the slices which are stored. What is left open by a
moment is also whether `append` finds room in the array. -/
def sharedProtocol (locks : Locks) :
    Lib.TwoPhase.Protocol (Fin locks.size) Bytes (Option (Entity σ)) (Shared σ) Request (Moment × Bool)
      SharedProgress Answer where
  discipline := (protocol env locks).discipline
  slot := locks.index
  look s key := s.world.db.data.lookup key
  enter := Shared.enter env
  start := Request.startShared env
  advance e := advanceShared (env.at e.1) e.2
  answer := SharedProgress.answer
  writes := (protocol env locks).writes
  touches := (protocol env locks).touches

/-- What `handleServer` writes once a request has unlocked. -/
def Shared.written (s : Shared σ) (answer : Answer) : Reply := answer.toReply s.memory

end

end Traitor.Database
