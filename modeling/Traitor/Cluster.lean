import Mathlib.Logic.Relation
import Traitor.MultiNode
import Traitor.Standalone

namespace Traitor.Cluster

open Schedule MultiNode

inductive Fields
  | state (state : UInt8)
  | change (change : Standalone.Change)
deriving DecidableEq

/-- The library functions: cron expressions, the update of one document, which fails when
it is not given as update operators, and a format without arguments. -/
structure World where
  lib : Standalone.Library
  findOneAndUpdate : Fields → JobEntity → Option JobEntity
  findOneAndUpdate_jobId : ∀ fields j j', findOneAndUpdate fields j = some j' → j'.jobId = j.jobId
  sprintf : Bytes → Bytes

/-- None is an error, and then nothing is written. -/
def updateJob (w : World) (jobId : Bytes) (fields : Fields) : Store → Option Store
  | [] => none
  | j :: store =>
      if j.jobId = jobId then (w.findOneAndUpdate fields j).map fun j' => j' :: store
      else (updateJob w jobId fields store).map fun store' => j :: store'

def removeJob (store : Store) (jobId : Bytes) : Store :=
  store.eraseP fun j => j.jobId = jobId

inductive Request
  | start (jobId : Bytes) (enable : Bool)
  | update (jobId : Bytes) (change : Standalone.Change)
  | remove (jobId : Bytes)
deriving DecidableEq

inductive Call
  | handleJobStateChange (key : Bytes) (state : UInt8)
  | handleJobTimeChange (key : Bytes)
  | remove (key : Bytes)
deriving DecidableEq

/-- What a request leaves in the store and what it calls. None is a request that is
turned down. A start goes on when its update has failed. -/
def handle (w : World) (now : Int) (store : Store) : Request → Option (Store × Call)
  | .start jobId enable =>
      match getJobInfo store jobId with
      | none => none
      | some entity =>
          if jobId = [] ∨ enable ∧ ¬ Standalone.checkTimeSettings w.lib now entity.execType
              entity.cron entity.execAt
          then none
          else
            let state := if enable then runnable else stop
            some ((updateJob w jobId (.state state) store).getD store,
              .handleJobStateChange jobId state)
  | .update jobId change =>
      match getJobInfo store jobId with
      | none => none
      | some entity =>
          if jobId = [] ∨ ¬ Standalone.checkTimeSettings w.lib now
              (change.execType.getD entity.execType) (change.cron.getD []) change.execAt
          then none
          else (updateJob w jobId (.change change) store).map fun store =>
            (store, .handleJobTimeChange jobId)
  | .remove jobId => some (removeJob store jobId, .remove jobId)

/-- The other nodes are told also when the job cannot be loaded or added. -/
def handleJobTimeChange (w : World) (env : Env) (s : Node) (key : Bytes) :
    Option (Node × List Bytes) :=
  match getJobInfo env.store key with
  | none => some (s, [w.sprintf (jobAdd key)])
  | some j => (addJob env s j).map fun (s, _) => (s, [w.sprintf (jobAdd key)])

/-- The node and the payloads it publishes. None is a panic of the process: one in the
goroutine of a request is recovered. -/
def call (w : World) (env : Env) (s : Node) : Call → Option (Node × List Bytes)
  | .handleJobStateChange key state => handleJobStateChange env s key state
  | .handleJobTimeChange key => some ((handleJobTimeChange w env s key).getD (s, []))
  | .remove key => some (cancelJob s key)

/-- A node with its connection to redis: the messages that redis has still to deliver to
it, whether the goroutine of its subscription waits for one, and whether the list of
nodes has been synchronised since the connection was made. -/
structure Member where
  node : Node
  keepAlive : Bool
  alive : Bool
  connected : Bool
  synced : Bool
  waiting : Bool
  queue : List Bytes

structure State (ι : Type) where
  now : Int
  store : Store
  member : ι → Member

def State.start {ι : Type} (now : Int) (store : Store) (nodeId : ι → Bytes) : State ι :=
  ⟨now, store, fun i => ⟨⟨nodeId i, ring [], []⟩, false, true, true, false, true, []⟩⟩

def State.env {ι : Type} (w : World) (c : State ι) : Env := ⟨w.lib.cron, c.now, c.store⟩

/-- Every subscriber that is connected gets what is published, the publisher too. -/
def publish {ι : Type} (member : ι → Member) (payloads : List Bytes) : ι → Member :=
  fun i =>
    if (member i).connected then { member i with queue := (member i).queue ++ payloads }
    else member i

/-- The goroutine of the subscription ends after the first message. -/
def deliver (env : Env) (m : Member) (payload : Bytes) : Member :=
  if m.waiting then
    match handleSubEvent env m.node payload with
    | none => { m with alive := false }
    | some s => { m with node := s, waiting := false }
  else m

def syncNodeList (env : Env) (m : Member) (ids : List Bytes) : Member :=
  if m.connected then
    if m.keepAlive then
      { m with node := { m.node with consistentMap := ring ids }, synced := true }
    else
      match initJobs env m.node with
      | none => { m with alive := false }
      | some s =>
          { m with node := { s with consistentMap := ring ids }, keepAlive := true, synced := true }
  else { m with node := { m.node with consistentMap := ring [] }, keepAlive := false }

inductive Event (ι : Type)
  | pass (d : Nat)
  | request (i : ι) (r : Request)
  | deliver (i : ι)
  | lose (i : ι)
  | restore (i : ι)
  | sync (i : ι) (ids : List Bytes)

variable {ι : Type} [DecidableEq ι]

def State.set (c : State ι) (i : ι) (m : Member) : State ι :=
  { c with member := Function.update c.member i m }

def serve (w : World) (c : State ι) (i : ι) (called : Call) : State ι :=
  let m := c.member i
  match call w (c.env w) m.node called with
  | none => c.set i { m with alive := false }
  | some (s, payloads) =>
      let c := c.set i { m with node := s }
      { c with member := publish c.member (if m.connected then payloads else []) }

def step (w : World) (c : State ι) : Event ι → Option (State ι)
  | .pass d => some { c with now := c.now + d }
  | .request i r =>
      if (c.member i).alive then
        match handle w c.now c.store r with
        | none => some c
        | some (store, called) => some (serve w { c with store := store } i called)
      else none
  | .deliver i =>
      let m := c.member i
      match m.queue with
      | [] => none
      | payload :: queue =>
          if m.alive then some (c.set i (deliver (c.env w) { m with queue := queue } payload))
          else none
  | .lose i => some (c.set i { c.member i with connected := false, synced := false })
  | .restore i => some (c.set i { c.member i with connected := true })
  | .sync i ids =>
      if (c.member i).alive then some (c.set i (syncNodeList (c.env w) (c.member i) ids)) else none

def Reaches (w : World) (ok : State ι → Event ι → Prop) : State ι → State ι → Prop :=
  Relation.ReflTransGen fun c d => ∃ e, ok c e ∧ step w c e = some d

def Holds (s : Node) (key : Bytes) : Prop := key ∈ s.timeWheel.map Prod.fst

def Runnable (store : Store) (key : Bytes) : Prop :=
  ∃ j ∈ store, j.jobId = key ∧ j.state = runnable

def Member.Connected (m : Member) : Prop := m.alive = true ∧ m.connected = true

def Quiet (c : State ι) : Prop :=
  ∀ i, (c.member i).Connected → (c.member i).queue = [] ∧ (c.member i).synced = true

def Converges (w : World) (ι : Type) [DecidableEq ι] (ok : State ι → Event ι → Prop) : Prop :=
  ∀ now store nodeId c, Reaches w ok (.start now store nodeId) c → Quiet c →
    ∀ i, (c.member i).Connected → ∀ key, Holds (c.member i).node key ↔ Runnable c.store key

end Traitor.Cluster
