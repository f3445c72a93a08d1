import Traitor.MultiNode

namespace Traitor.MultiNode

open Schedule

variable (cron : Cron) (now : Int) (store : Store) (job : JobEntity)

def runnableEntity : JobEntity := { job with execAt := none, execType := 0, state := 0 }

/-- The time `addJob` finds, or the text of its error. None is a panic. -/
def delayOf : Option (Except String Int) :=
  if job.execType = timingExecute then
    (resolveCron cron now job.cron).map fun next =>
      next.elim (.error "job would never get next exec time") .ok
  else
    job.execAt.map fun execAt =>
      if sub execAt now ≤ 0 then .error "delay job has expired" else .ok (sub execAt now)

def SameEffect (j j' : JobEntity) : Prop :=
  j.jobId = j'.jobId ∧ j.execType = j'.execType ∧ delayOf cron now j = delayOf cron now j' ∧
    Schedule.addJob cron now j = Schedule.addJob cron now j'

/-- The job is in both answers of the store, and scheduled alike from either. -/
def Resyncs : Prop :=
  runnableEntity job ∈ getRunnableJobs store ∧ ∃ entity, getJobInfo store job.jobId = some entity ∧
    SameEffect cron now (runnableEntity job) entity

variable {cron now store job}

theorem addJob_eq (j : JobEntity) : Schedule.addJob cron now j =
    match delayOf cron now j with
    | none => .panic
    | some (.error _) => .error
    | some (.ok d) => addToWheel d j.jobId (Schedule.createTask j.jobId j.execType) := by
  rw [Schedule.addJob, delayOf]
  by_cases htiming : j.execType = timingExecute
  · simp only [if_pos htiming]
    cases resolveCron cron now j.cron with
    | none => rfl
    | some next => cases next <;> rfl
  · simp only [if_neg htiming]
    cases j.execAt with
    | none => rfl
    | some execAt => by_cases hexpired : sub execAt now ≤ 0 <;> simp [hexpired]

theorem sameEffect_iff {j j' : JobEntity} : SameEffect cron now j j' ↔
    j.jobId = j'.jobId ∧ j.execType = j'.execType ∧ delayOf cron now j = delayOf cron now j' := by
  constructor
  · rintro ⟨hid, htype, hdelay, -⟩
    exact ⟨hid, htype, hdelay⟩
  · rintro ⟨hid, htype, hdelay⟩
    exact ⟨hid, htype, hdelay, by rw [addJob_eq, addJob_eq, hid, htype, hdelay]⟩

/-- Without the execution type every job is taken for a timing one. -/
theorem delayOf_runnableEntity : delayOf cron now (runnableEntity job) =
    (resolveCron cron now job.cron).map fun next =>
      next.elim (.error "job would never get next exec time") .ok := rfl

theorem delayOf_timing (h : job.execType = timingExecute) :
    delayOf cron now job = delayOf cron now (runnableEntity job) := by
  rw [delayOf, if_pos h, delayOf_runnableEntity]

theorem delayOf_runnableEntity_inj {j j' : JobEntity}
    (h : delayOf cron now (runnableEntity j) = delayOf cron now (runnableEntity j')) :
    resolveCron cron now j.cron = resolveCron cron now j'.cron := by
  refine Option.map_injective ?_ h
  rintro (_ | d) (_ | d') heq
  · rfl
  · cases heq
  · cases heq
  · cases heq
    rfl

theorem resyncs_iff (hjob : job ∈ store) (hstate : job.state = runnable) :
    Resyncs cron now store job ↔ ∃ entity, getJobInfo store job.jobId = some entity ∧
      entity.execType = timingExecute ∧ resolveCron cron now entity.cron = resolveCron cron now job.cron := by
  have hmem : runnableEntity job ∈ getRunnableJobs store :=
    List.mem_map_of_mem (List.mem_filter.mpr ⟨hjob, by simpa using hstate⟩)
  rw [Resyncs, and_iff_right hmem]
  refine exists_congr fun entity => and_congr_right fun hentity => ?_
  have hid : entity.jobId = job.jobId := by simpa using List.find?_some hentity
  rw [sameEffect_iff]
  constructor
  · rintro ⟨-, htype, hdelay⟩
    rw [delayOf_timing htype.symm] at hdelay
    exact ⟨htype.symm, (delayOf_runnableEntity_inj hdelay).symm⟩
  · rintro ⟨htype, hcron⟩
    refine ⟨hid.symm, htype.symm, ?_⟩
    rw [delayOf_timing htype, delayOf_runnableEntity, delayOf_runnableEntity, hcron]

/-- Expressions without a text do not parse, and the others have their next time after a second. -/
def secondly : Cron := fun str now => if str = [] then none else some (some (now + 1000000000))

def timingJob : JobEntity := ⟨bytes "a", bytes "* * * * *", none, timingExecute, runnable⟩

theorem resyncs_timingJob : Resyncs secondly 0 [timingJob] timingJob :=
  (resyncs_iff (List.mem_singleton_self _) rfl).mpr ⟨timingJob, rfl, rfl, rfl⟩

def delayJob : JobEntity := ⟨bytes "a", [], some 1000000000, delayExecute, runnable⟩

/-- A delay job is sent to the wheel by its id, and its empty expression panics in the bulk. -/
theorem not_resyncs_delayJob : ¬ Resyncs secondly 0 [delayJob] delayJob ∧
    Schedule.addJob secondly 0 (runnableEntity delayJob) = .panic ∧
    (getJobInfo [delayJob] (bytes "a")).map (Schedule.addJob secondly 0) =
      some (.sent 1000000000 (bytes "a") (.exec (bytes "a"))) := by
  refine ⟨?_, rfl, rfl⟩
  rintro ⟨-, entity, hentity, -, htype, -⟩
  obtain rfl : delayJob = entity := Option.some.inj hentity
  cases htype

end Traitor.MultiNode
