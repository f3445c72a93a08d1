import Mathlib.Logic.Function.Basic
import Mathlib.Order.Basic
import Traitor.Schedule

namespace Traitor.Standalone

open Schedule

/-- The hash of a job in the local database. A field that is not there reads as
its zero value, and so does every field of a job that is not there. -/
structure Record where
  cron : Bytes
  execAt : Bytes
  execType : UInt8
  state : UInt8
  script : Bytes
deriving DecidableEq

def Record.zero : Record := ⟨[], [], 0, 0, []⟩

structure Store where
  record : Bytes → Record
  jobKeys : Bytes → Bool

/-- The library functions: cron expressions, of which the empty one does not parse,
and the text of an instant written and read. -/
structure Library where
  cron : Cron
  cron_nil : ∀ t, cron [] t = none
  timeFormat : Int → Bytes
  timeParses : Bytes → Bool

/-- Every expression but the empty one comes due every minute. -/
def everyMinute : Library where
  cron c t := if c = [] then none else some (some (t + 60 * second))
  cron_nil _ := rfl
  timeFormat _ := []
  timeParses _ := false

def zeroTime : Int := -62135596800 * second

/-- The test for an error of the time parser is the wrong way round, so what is
loaded is the zero time. -/
def getJobInfo (lib : Library) (jobId : Bytes) (r : Record) : JobEntity where
  jobId := jobId
  cron := r.cron
  execAt := if r.execAt = [] then none else if lib.timeParses r.execAt then none else some zeroTime
  execType := r.execType
  state := r.state

structure Draft where
  cron : Bytes
  execAt : Option Int
  execType : UInt8
  script : Bytes
deriving DecidableEq

/-- The body of an update request. Only what is a string there is written. -/
structure Change where
  cron : Option Bytes
  execAt : Option Int
  execType : Option UInt8
  script : Option Bytes
deriving DecidableEq

inductive Request
  | create (jobId : Bytes) (job : Draft)
  | run (jobId : Bytes) (job : Draft)
  | start (jobId : Bytes) (enable : Bool)
  | remove (jobId : Bytes)
  | update (jobId : Bytes) (change : Change)
  | updateScript (jobId : Bytes) (script : Bytes)
deriving DecidableEq

/-- Where a goroutine is. The first of the lines are the handlers of requests, then
come `HandleJobStateChange` and `cancelJob`, then what adds a job to the wheel, and
last the closure that the wheel calls. -/
inductive Point
  | create (runs : Bool) (job : Draft)
  | hmset (runs : Bool) (job : Draft)
  | sadd (runs : Bool)
  | start (enable : Bool)
  | setState (state : UInt8)
  | update (change : Change)
  | updateJob (change : Change)
  | updateScript (script : Bytes)
  | stateChange (state : UInt8)
  | cancelJob (removes : Bool)
  | srem
  | del
  | getJobInfo
  | addJob (r : Record)
  | send (job : Task)
  | call (job : Task)
  | executed (job : Task)
deriving DecidableEq

/-- A panic ends the process in a goroutine that a handler has started. In a
request and in a closure it is recovered. -/
inductive Kind
  | request
  | spawned
  | execution
deriving DecidableEq

structure Goroutine where
  jobId : Bytes
  kind : Kind
  point : Point
deriving DecidableEq

inductive Message
  | add (key : Bytes) (job : Task)
  | remove (key : Bytes)
deriving DecidableEq

/-- The wheel holds the tasks that wait for their tick. -/
structure State where
  now : Nat
  store : Store
  timeWheel : List (Bytes × Task)
  inbox : Option Message
  goroutines : List Goroutine
  alive : Bool

def State.make (now : Nat) : State :=
  ⟨now, ⟨fun _ => .zero, fun _ => false⟩, [], none, [], true⟩

def checkTimeSettings (lib : Library) (now : Int) (execType : UInt8) (cron : Bytes)
    (execAt : Option Int) : Bool :=
  if execType = timingExecute then (lib.cron cron now).isSome
  else
    match execAt with
    | none => false
    | some t => ¬ sub t now ≤ 5

/-- The fields that are empty in the body are not written. -/
def addFields (lib : Library) (state : UInt8) (job : Draft) (r : Record) : Record where
  cron := if job.cron = [] then r.cron else job.cron
  execAt := match job.execAt with
    | none => r.execAt
    | some t => lib.timeFormat t
  execType := job.execType
  state := state
  script := if job.script = [] then r.script else job.script

def Store.set (s : Store) (jobId : Bytes) (r : Record) : Store :=
  { s with record := Function.update s.record jobId r }

def State.setRecord (s : State) (jobId : Bytes) (r : Record) : State :=
  { s with store := s.store.set jobId r }

def State.setKey (s : State) (jobId : Bytes) (member : Bool) : State :=
  { s with store := { s.store with jobKeys := Function.update s.store.jobKeys jobId member } }

def State.panic (s : State) : Kind → State
  | .spawned => { s with alive := false }
  | .request | .execution => s

/-- One step of a goroutine: the state, where the goroutine goes on, and whether the
script of the job is started. None is a goroutine that has to wait for the wheel. -/
def advance (lib : Library) (s : State) (g : Goroutine) : Option (State × Option Point × Bool) :=
  let r := s.store.record g.jobId
  match g.point with
  | .create runs job =>
      if (job.execType = timingExecute ∨ job.execType = delayExecute) ∧
          checkTimeSettings lib s.now job.execType job.cron job.execAt
      then some (s, some (.hmset runs job), false)
      else some (s, none, false)
  | .hmset runs job =>
      some (s.setRecord g.jobId (addFields lib (if runs then runnable else stop) job r),
        some (.sadd runs), false)
  | .sadd runs =>
      if s.store.jobKeys g.jobId then some (s, none, false)
      else some (s.setKey g.jobId true, if runs then some (.stateChange runnable) else none, false)
  | .start enable =>
      let entity := getJobInfo lib g.jobId r
      if enable ∧ ¬ checkTimeSettings lib s.now entity.execType entity.cron entity.execAt
      then some (s, none, false)
      else some (s, some (.setState (if enable then runnable else stop)), false)
  | .setState state =>
      some (s.setRecord g.jobId { r with state := state }, some (.stateChange state), false)
  | .update change =>
      if checkTimeSettings lib s.now (change.execType.getD r.execType) (change.cron.getD [])
          change.execAt
      then some (s, some (.updateJob change), false)
      else some (s, none, false)
  | .updateJob change =>
      some (s.setRecord g.jobId
        { r with cron := change.cron.getD r.cron, script := change.script.getD r.script },
        some .getJobInfo, false)
  | .updateScript script => some (s.setRecord g.jobId { r with script := script }, none, false)
  | .stateChange state =>
      some (s, some (if state = runnable then .getJobInfo else .cancelJob false), false)
  | .cancelJob removes =>
      match s.inbox with
      | some _ => none
      | none => some ({ s with inbox := some (.remove g.jobId) },
          if removes then some .srem else none, false)
  | .srem =>
      if s.store.jobKeys g.jobId then some (s.setKey g.jobId false, some .del, false)
      else some (s, none, false)
  | .del => some (s.setRecord g.jobId .zero, none, false)
  | .getJobInfo => some (s, some (.addJob r), false)
  | .addJob r =>
      match Schedule.addJob lib.cron s.now (getJobInfo lib g.jobId r) with
      | .panic => some (s.panic g.kind, none, false)
      | .error => some (s, none, false)
      | .dropped => some (s, none, false)
      | .sent _ _ job => some (s, some (.send job), false)
  | .send job =>
      match s.inbox with
      | some _ => none
      | none => some ({ s with inbox := some (.add g.jobId job) }, none, false)
  -- a script that is not there is run as the empty program
  | .call job => some (s, some (.executed job), r.script ≠ [])
  | .executed job =>
      match job with
      | .timing _ => some (s, some .getJobInfo, false)
      | .exec _ => some (s, none, false)
      | .guarded _ _ => some (s, none, false)

def Request.jobId : Request → Bytes
  | .create id _ | .run id _ | .start id _ | .remove id | .update id _ | .updateScript id _ => id

def Request.point : Request → Point
  | .create _ job => .create false job
  | .run _ job => .create true job
  | .start _ enable => .start enable
  | .remove _ => .cancelJob true
  | .update _ change => .update change
  | .updateScript _ script => .updateScript script

/-- `Start` leaves the last part of its work to a goroutine of its own. -/
def Goroutine.goOn (g : Goroutine) (point : Point) : Goroutine :=
  match g.point with
  | .setState _ => { g with kind := .spawned, point := point }
  | _ => { g with point := point }

def resume (goroutines : List Goroutine) (i : Nat) (g : Goroutine) :
    Option Point → List Goroutine
  | none => goroutines.eraseIdx i
  | some point => goroutines.set i (g.goOn point)

def handle (s : State) : Message → State
  | .add key job =>
      { s with timeWheel := s.timeWheel.filter (fun waiting => ¬ waiting.1 = key) ++ [(key, job)] }
  | .remove key => { s with timeWheel := s.timeWheel.filter (fun waiting => ¬ waiting.1 = key) }

inductive Action
  | pass (d : Nat)
  | request (r : Request)
  | fire (i : Nat)
  | handle
  | move (i : Nat)
deriving DecidableEq

def step (lib : Library) (s : State) : Action → Option (State × Option Bytes)
  | .pass d => if s.alive then some ({ s with now := s.now + d }, none) else none
  | .request r =>
      if s.alive ∧ r.jobId ≠ [] then
        some ({ s with goroutines := s.goroutines ++ [⟨r.jobId, .request, r.point⟩] }, none)
      else none
  | .fire i =>
      match s.timeWheel[i]? with
      | none => none
      | some (key, job) =>
          if s.alive then
            some ({ s with
              timeWheel := s.timeWheel.eraseIdx i
              goroutines := s.goroutines ++ [⟨key, .execution, .call job⟩] }, none)
          else none
  | .handle =>
      match s.inbox with
      | none => none
      | some m => if s.alive then some (handle { s with inbox := none } m, none) else none
  | .move i =>
      match s.goroutines[i]? with
      | none => none
      | some g =>
          if s.alive then
            match advance lib s g with
            | none => none
            | some (t, next, started) =>
                some ({ t with goroutines := resume s.goroutines i g next },
                  if started then some g.jobId else none)
          else none

inductive Steps (lib : Library) (s : State) : Action → State → Option Bytes → Prop
  | pass (d : Nat) : Steps lib s (.pass d) { s with now := s.now + d } none
  | request (r : Request) (hr : r.jobId ≠ []) :
      Steps lib s (.request r) { s with goroutines := s.goroutines ++ [⟨r.jobId, .request, r.point⟩] } none
  | fire (i : Nat) (key : Bytes) (job : Task) (hi : s.timeWheel[i]? = some (key, job)) :
      Steps lib s (.fire i)
        { s with
          timeWheel := s.timeWheel.eraseIdx i
          goroutines := s.goroutines ++ [⟨key, .execution, .call job⟩] } none
  | handle (m : Message) (hm : s.inbox = some m) :
      Steps lib s .handle (Standalone.handle { s with inbox := none } m) none
  | move (i : Nat) (g : Goroutine) (t : State) (next : Option Point) (started : Bool)
      (hi : s.goroutines[i]? = some g) (hadv : advance lib s g = some (t, next, started)) :
      Steps lib s (.move i) { t with goroutines := resume s.goroutines i g next }
        (if started then some g.jobId else none)

theorem step_cases {lib : Library} {s t : State} {a : Action} {started : Option Bytes}
    (h : step lib s a = some (t, started)) : s.alive = true ∧ Steps lib s a t started := by
  cases a with
  | pass d =>
      obtain ⟨halive, ⟨⟩⟩ := Option.ite_none_right_eq_some.mp h
      exact ⟨halive, .pass d⟩
  | request r =>
      obtain ⟨⟨halive, hr⟩, ⟨⟩⟩ := Option.ite_none_right_eq_some.mp h
      exact ⟨halive, .request r hr⟩
  | fire i =>
      simp only [step] at h
      cases hi : s.timeWheel[i]? with
      | none => simp [hi] at h
      | some waiting =>
          rw [hi] at h
          obtain ⟨halive, ⟨⟩⟩ := Option.ite_none_right_eq_some.mp h
          exact ⟨halive, .fire i waiting.1 waiting.2 hi⟩
  | handle =>
      simp only [step] at h
      cases hm : s.inbox with
      | none => simp [hm] at h
      | some m =>
          rw [hm] at h
          obtain ⟨halive, ⟨⟩⟩ := Option.ite_none_right_eq_some.mp h
          exact ⟨halive, .handle m hm⟩
  | move i =>
      simp only [step] at h
      cases hi : s.goroutines[i]? with
      | none => simp [hi] at h
      | some g =>
          rw [hi] at h
          obtain ⟨halive, h⟩ := Option.ite_none_right_eq_some.mp h
          cases hadv : advance lib s g with
          | none => simp [hadv] at h
          | some moved =>
              rw [hadv] at h
              cases h
              exact ⟨halive, .move i g _ _ _ hi hadv⟩

def run (lib : Library) (s : State) : List Action → Option (State × List Bytes)
  | [] => some (s, [])
  | a :: as =>
      match step lib s a with
      | none => none
      | some (t, started) => (run lib t as).map fun (u, rest) => (u, started.toList ++ rest)

def Request.Revives (key : Bytes) : Request → Bool
  | .create _ _ => false
  | .run id _ => id = key
  | .start id enable => id = key ∧ enable
  | .remove _ => false
  | .update id _ => id = key
  | .updateScript id _ => id = key

def Request.Cancels (key : Bytes) : Request → Bool
  | .create _ _ => false
  | .run _ _ => false
  | .start id enable => id = key ∧ ¬ enable
  | .remove id => id = key
  | .update _ _ => false
  | .updateScript _ _ => false

def Action.Revives (key : Bytes) : Action → Bool
  | .request r => r.Revives key
  | _ => false

def Action.Cancels (key : Bytes) : Action → Bool
  | .request r => r.Cancels key
  | _ => false

def StaysStopped (lib : Library) (s : State) (key : Bytes) : Prop :=
  ∀ as t started, run lib s as = some (t, started) → (∀ a ∈ as, ¬ a.Revives key) → key ∉ started

def Goroutine.Executing (g : Goroutine) : Prop :=
  g.kind = .execution ∧
    match g.point with
    | .call _ | .executed _ | .getJobInfo | .addJob _ | .send _ => True
    | _ => False

def Settled (s : State) (key : Bytes) : Prop :=
  ∀ g ∈ s.goroutines, g.jobId = key → g.Executing

/-- The last request for the job that is not only about its texts was one to stop it. -/
def Cancelled (key : Bytes) (as : List Action) : Prop :=
  ∃ before a after, as = before ++ a :: after ∧ a.Cancels key ∧ ∀ b ∈ after, ¬ b.Revives key

end Traitor.Standalone
