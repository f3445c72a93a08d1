import Traitor.Basic

namespace Traitor.Schedule

/-- The fields that scheduling reads. Instants are nanoseconds. -/
structure JobEntity where
  jobId : Bytes
  cron : Bytes
  execAt : Option Int
  execType : UInt8
  state : UInt8
deriving DecidableEq

def JobEntity.zero : JobEntity := ⟨[], [], none, 0, 0⟩

def timingExecute : UInt8 := 0

def delayExecute : UInt8 := 1

def runnable : UInt8 := 1

def stop : UInt8 := 0

/-- What the cron library answers for an expression and an instant. None is the
panic on a string that does not parse, and the inner none the zero time. -/
abbrev Cron := Bytes → Int → Option (Option Int)

/-- The closures that are put into the wheel: one run of the script of a job, the
same with the job put into the wheel again after it, and either of them behind
the test whether this node is the owner of the job. -/
inductive Task
  | exec (key : Bytes)
  | timing (key : Bytes)
  | guarded (key : Bytes) (fn : Task)
deriving DecidableEq

def createTask (key : Bytes) (execType : UInt8) : Task :=
  if execType = delayExecute then .exec key else .timing key

def sub (t u : Int) : Int := max (-2 ^ 63) (min (t - u) (2 ^ 63 - 1))

/-- What becomes of a job: `sent` is the task handed to the wheel, and a negative
delay is dropped in front of it. -/
inductive Added
  | panic
  | error
  | dropped
  | sent (delay : Int) (key : Bytes) (job : Task)
deriving DecidableEq

def addToWheel (delay : Int) (key : Bytes) (job : Task) : Added :=
  if delay < 0 then .dropped else .sent delay key job

def resolveCron (cron : Cron) (now : Int) (str : Bytes) : Option (Option Int) :=
  (cron str now).map fun next => next.map fun t => sub t now

/-- The closure is made by the method of the embedded struct, whatever the type is
that embeds it. -/
def addJob (cron : Cron) (now : Int) (j : JobEntity) : Added :=
  let fn := createTask j.jobId j.execType
  if j.execType = timingExecute then
    match resolveCron cron now j.cron with
    | none => .panic
    | some none => .error
    | some (some d) => addToWheel d j.jobId fn
  else
    match j.execAt with
    | none => .panic
    | some execAt =>
        if sub execAt now ≤ 0 then .error else addToWheel (sub execAt now) j.jobId fn

theorem addJob_sent {cron : Cron} {now : Int} {j : JobEntity} {delay : Int} {key : Bytes}
    {job : Task} (h : addJob cron now j = .sent delay key job) :
    0 ≤ delay ∧ key = j.jobId ∧ job = createTask j.jobId j.execType := by
  have hwheel {d : Int} {fn : Task} (hw : addToWheel d j.jobId fn = .sent delay key job) :
      0 ≤ delay ∧ key = j.jobId ∧ job = fn := by
    rw [addToWheel] at hw
    split at hw
    · simp at hw
    · simp only [Added.sent.injEq] at hw
      obtain ⟨rfl, rfl, rfl⟩ := hw
      exact ⟨by omega, rfl, rfl⟩
  rw [addJob] at h
  split at h
  · split at h
    · simp at h
    · simp at h
    · exact hwheel h
  · split at h
    · simp at h
    · split at h
      · simp at h
      · exact hwheel h

end Traitor.Schedule
