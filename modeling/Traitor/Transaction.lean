import Mathlib.Data.List.AList
import Traitor.Router

namespace Traitor.Transaction

open Database Lib.Effects Lib.Strconv Protocol

def prime32 : UInt32 := 16777619

def hash (key : Bytes) : UInt32 :=
  key.foldl (fun hash b => hash * prime32 ^^^ b.toUInt32) 2166136261

def lockerSize : UInt32 := 1024

def spread (hashCode : UInt32) : UInt32 := (lockerSize - 1) &&& hashCode

def toLockIndices (keys : List Bytes) : List UInt32 := keys.map fun key => spread (hash key)

inductive Next
  | execute (c : CommandName) (args : List Slice)
  | release (write read : List Bytes) (reply : Reply)

/-- How far a connection is with its request: `bumping` and `putting` are the two steps
of `addVersion`, and `committing` waits for the locks of `EXEC`. -/
inductive Stage
  | idle
  | watching (keys : List Bytes)
  | bumping (keys : List Bytes) (next : Next)
  | putting (key : Bytes) (versionCode : UInt32) (keys : List Bytes) (next : Next)
  | committing

def Stage.locked : Stage → List Bytes × List Bytes
  | .bumping _ (.release write read _) | .putting _ _ _ (.release write read _) => (write, read)
  | _ => ([], [])

structure Connection where
  multiState : Bool
  queue : List CmdLine
  watching : AList fun _ : Bytes => UInt32
  txErrors : List Reply
  stage : Stage
  replies : List Reply

structure System (ι σ : Type) where
  world : World σ
  conns : ι → Connection

def newConn : Connection where
  multiState := false
  queue := []
  watching := ∅
  txErrors := []
  stage := .idle
  replies := []

namespace Connection

def write (conn : Connection) (reply : Reply) : Connection :=
  { conn with stage := .idle, replies := conn.replies ++ [reply] }

def setMultiState (conn : Connection) (state : Bool) : Connection :=
  if state then { conn with multiState := true }
  else { conn with multiState := false, watching := ∅, queue := [] }

def addTxError (conn : Connection) (e : Reply) : Connection :=
  { conn with txErrors := conn.txErrors ++ [e] }

def startMulti (conn : Connection) : Connection :=
  if conn.multiState then conn.write (errReply "ERR MULTI calls can not be nested")
  else (conn.setMultiState true).write .ok

def discardMulti (conn : Connection) : Connection :=
  if conn.multiState then (conn.setMultiState false).write .ok
  else conn.write (errReply "ERR DISCARD without MULTI")

def execAbort : Reply := errReply "EXECABORT Transaction discarded because of previous errors."

/-- `EXEC` up to the point where it waits for its locks. -/
def execMulti (conn : Connection) : Connection :=
  if conn.multiState then
    if conn.txErrors = [] then { conn with stage := .committing }
    else (conn.setMultiState false).write execAbort
  else conn.write (errReply "ERR EXEC without MULTI")

def watch (conn : Connection) (key : Bytes) (version : UInt32) (keys : List Bytes) : Connection :=
  let conn := { conn with watching := conn.watching.insert key version, stage := .watching keys }
  if keys = [] then conn.write .ok else conn

end Connection

section

variable {σ : Type} [LinearOrder σ] [Inhabited σ] (env : Env σ)

def lookupCommand (name : Slice) (args : List Slice) : Except Reply CommandName :=
  let cmdName := toLower (text name)
  match cmdTable cmdName with
  | none => .error (.standardErr (bytes "ERR unknown command '" ++ cmdName ++ bytes "'"))
  | some c =>
      if validateArity (command env c).arity (name :: args) then .ok c
      else .error (.argNumErr cmdName)

def enqueueCmd (conn : Connection) (name : Slice) (args : List Slice) : Connection :=
  match lookupCommand env name args with
  | .error e => (conn.addTxError e).write e
  | .ok _ => { conn with queue := conn.queue ++ [name :: args] }.write .queued

def execNormalCommand (conn : Connection) (name : Slice) (args : List Slice) : Connection :=
  match lookupCommand env name args with
  | .error e => conn.write e
  | .ok c => { conn with stage := .bumping ((command env c).prepare args).1 (.execute c args) }

/-- A line without a name panics, and the panic is answered. -/
def exec (conn : Connection) : CmdLine → Connection
  | [] => conn.write .unknownErr
  | name :: args =>
      let cmdName := toLower (text name)
      if cmdName = bytes "multi" then
        if args = [] then conn.startMulti else conn.write (.argNumErr cmdName)
      else if cmdName = bytes "discard" then
        if args = [] then conn.discardMulti else conn.write (.argNumErr cmdName)
      else if cmdName = bytes "exec" then
        if args = [] then conn.execMulti else conn.write (.argNumErr cmdName)
      else if cmdName = bytes "watch" then
        if args = [] then conn.write (.argNumErr cmdName)
        else { conn with stage := .watching (args.map text) }
      else if conn.multiState then enqueueCmd env conn name args
      else execNormalCommand env conn name args

def lineKeys : CmdLine → List Bytes × List Bytes
  | [] => ([], [])
  | name :: args =>
      match cmdTable (toLower (text name)) with
      | none => ([], [])
      | some c => (command env c).prepare args

def writeKeys (conn : Connection) : List Bytes := conn.queue.flatMap fun line => (lineKeys env line).1

def readKeys (conn : Connection) : List Bytes :=
  conn.queue.flatMap (fun line => (lineKeys env line).2) ++ conn.watching.keys

def isWatchingChanged (db : DB σ) (watching : AList fun _ : Bytes => UInt32) : Bool :=
  watching.entries.any fun e => e.2 != db.versionMap e.1

def getUndoLogs : CmdLine → Exec σ (List CmdLine)
  | [] => panics
  | name :: args =>
      match cmdTable (toLower (text name)) with
      | none => return []
      | some c =>
          match (command env c).undo with
          | none => return []
          | some undo => undo args

/-- The results and the lines that undo them, and if a line was answered by an error. -/
def execLines : List CmdLine → Exec σ (List Reply × List (List CmdLine) × Bool)
  | [] => return ([], [], false)
  | line :: lines => do
      let undo ← getUndoLogs env line
      let result ← execWithLock env line
      if isErrorReply result then return ([], [], true)
      else
        let (results, undos, aborted) ← execLines lines
        return (result :: results, undo :: undos, aborted)

def execUndo : List CmdLine → Exec σ PUnit
  | [] => return ⟨⟩
  | line :: lines => do
      let _ ← execWithLock env line
      execUndo lines

def execQueue (lines : List CmdLine) : Exec σ (Option (List Reply)) := do
  let (results, undos, aborted) ← execLines env lines
  if aborted then
    execUndo env undos.reverse.flatten
    return none
  else return some results

/-- `EXEC` once it has its locks, up to the versions. The connection leaves the state of
a transaction with it. -/
def execLocked (conn : Connection) (w : World σ) : Connection × World σ :=
  let write := writeKeys env conn
  let read := readKeys env conn
  let done := conn.setMultiState false
  if isWatchingChanged w.db conn.watching then
    ({ done with stage := .bumping [] (.release write read .emptyMultiBulk) }, w)
  else
    let w' := final (execQueue env conn.queue) w
    match value (execQueue env conn.queue) w with
    | some (some results) =>
        ({ done with stage := .bumping write (.release write read (.multiRaw results)) }, w')
    | some none => ({ done with stage := .bumping [] (.release write read Connection.execAbort) }, w')
    | none => ({ done with stage := .bumping [] (.release write read .unknownErr) }, w')

def executeLocked (conn : Connection) (c : CommandName) (args : List Slice) (w : World σ) :
    Connection × World σ :=
  let (write, read) := (command env c).prepare args
  let reply := (value ((command env c).executor args) w).getD .unknownErr
  ({ conn with stage := .bumping [] (.release write read reply) },
    final ((command env c).executor args) w)

end

section

variable {ι σ : Type} [DecidableEq ι] [LinearOrder σ] [Inhabited σ]

/-- No other connection holds a lock that these are in conflict with. -/
def System.Free (s : System ι σ) (i : ι) (write read : List Bytes) : Prop :=
  ∀ j ≠ i, ∀ index,
    (index ∈ toLockIndices write →
      index ∉ toLockIndices ((s.conns j).stage.locked.1 ++ (s.conns j).stage.locked.2)) ∧
    (index ∈ toLockIndices read → index ∉ toLockIndices (s.conns j).stage.locked.1)

def System.update (s : System ι σ) (i : ι) (conn : Connection) (w : World σ) : System ι σ :=
  ⟨w, Function.update s.conns i conn⟩

def World.putVersion (w : World σ) (key : Bytes) (versionCode : UInt32) : World σ :=
  { w with db := { w.db with versionMap := Function.update w.db.versionMap key versionCode } }

inductive Event
  | request (line : CmdLine)
  | watch
  | getVersion
  | putVersion
  | execute
  | exec
  | unlock

inductive Step (env : Env σ) (i : ι) (s : System ι σ) : Event → System ι σ → Prop
  | request (line : CmdLine) (h : (s.conns i).stage = .idle) :
      Step env i s (.request line) (s.update i (exec env (s.conns i) line) s.world)
  | watch (key : Bytes) (keys : List Bytes) (h : (s.conns i).stage = .watching (key :: keys)) :
      Step env i s .watch
        (s.update i ((s.conns i).watch key (s.world.db.versionMap key) keys) s.world)
  | getVersion (key : Bytes) (keys : List Bytes) (next : Next)
      (h : (s.conns i).stage = .bumping (key :: keys) next) :
      Step env i s .getVersion
        (s.update i { s.conns i with stage := .putting key (s.world.db.versionMap key) keys next }
          s.world)
  | putVersion (key : Bytes) (versionCode : UInt32) (keys : List Bytes) (next : Next)
      (h : (s.conns i).stage = .putting key versionCode keys next) :
      Step env i s .putVersion
        (s.update i { s.conns i with stage := .bumping keys next }
          (World.putVersion s.world key (versionCode + 1)))
  | execute (c : CommandName) (args : List Slice)
      (h : (s.conns i).stage = .bumping [] (.execute c args))
      (hfree : s.Free i ((command env c).prepare args).1 ((command env c).prepare args).2) :
      Step env i s .execute
        (s.update i (executeLocked env (s.conns i) c args s.world).1
          (executeLocked env (s.conns i) c args s.world).2)
  | exec (h : (s.conns i).stage = .committing)
      (hfree : s.Free i (writeKeys env (s.conns i)) (readKeys env (s.conns i))) :
      Step env i s .exec
        (s.update i (execLocked env (s.conns i) s.world).1
          (execLocked env (s.conns i) s.world).2)
  | unlock (write read : List Bytes) (reply : Reply)
      (h : (s.conns i).stage = .bumping [] (.release write read reply)) :
      Step env i s .unlock (s.update i ((s.conns i).write reply) s.world)

end

end Traitor.Transaction
