import Traitor.Cluster

namespace Traitor.TimeSettings

open Schedule Standalone

/-- The task of the job has been handed to the wheel. -/
def Slotted (added : Added) : Prop := ∃ delay key job, added = .sent delay key job

def Recurs (cron : Cron) (now : Int) (str : Bytes) : Prop :=
  ∀ next, cron str now = some next → ∃ t, next = some t ∧ now ≤ t

theorem sub_neg_iff (t u : Int) : sub t u < 0 ↔ t < u := by
  rw [sub]
  omega

theorem sub_le_iff {t u d : Int} (hd : 0 ≤ d) (hmax : d < 2 ^ 63 - 1) : sub t u ≤ d ↔ t - u ≤ d := by
  rw [sub]
  omega

theorem addToWheel_slotted_iff (delay : Int) (key : Bytes) (job : Task) :
    Slotted (addToWheel delay key job) ↔ 0 ≤ delay := by
  rw [addToWheel]
  split
  · next hneg => exact iff_of_false (by rintro ⟨_, _, _, h⟩; cases h) (by omega)
  · next hpos => exact iff_of_true ⟨_, _, _, rfl⟩ (by omega)

theorem addJob_timing_slotted_iff {cron : Cron} {now : Int} {j : JobEntity}
    (h : j.execType = timingExecute) :
    Slotted (addJob cron now j) ↔ ∃ t, cron j.cron now = some (some t) ∧ now ≤ t := by
  rw [addJob, if_pos h, resolveCron]
  rcases hnext : cron j.cron now with _ | _ | t
  · exact iff_of_false (by rintro ⟨_, _, _, h⟩; cases h) (by simp)
  · exact iff_of_false (by rintro ⟨_, _, _, h⟩; cases h) (by simp)
  · have hsub := sub_neg_iff t now
    simp only [Option.map_some, addToWheel_slotted_iff, Option.some.injEq, exists_eq_left']
    omega

theorem addJob_delay_slotted_iff {cron : Cron} {now : Int} {j : JobEntity}
    (h : j.execType ≠ timingExecute) :
    Slotted (addJob cron now j) ↔ ∃ t, j.execAt = some t ∧ now < t := by
  rw [addJob, if_neg h]
  cases j.execAt with
  | none => exact iff_of_false (by rintro ⟨_, _, _, h⟩; cases h) (by simp)
  | some t =>
      have hsub := sub_le_iff (t := t) (u := now) le_rfl (by omega)
      simp only [Option.some.injEq, exists_eq_left']
      split
      · exact iff_of_false (by rintro ⟨_, _, _, h⟩; cases h) (by omega)
      · rw [addToWheel_slotted_iff]
        omega

theorem checkTimeSettings_delay_iff {lib : Library} {now : Int} {execType : UInt8} {cron : Bytes}
    {execAt : Option Int} (h : execType ≠ timingExecute) :
    checkTimeSettings lib now execType cron execAt = true ↔ ∃ t, execAt = some t ∧ 5 < t - now := by
  simp only [checkTimeSettings, if_neg h]
  cases execAt with
  | none => simp
  | some t =>
      have hsub := sub_le_iff (t := t) (u := now) (d := 5) (by omega) (by omega)
      simp only [decide_eq_true_eq, Option.some.injEq, exists_eq_left']
      omega

theorem checkTimeSettings_timing {lib : Library} {now : Int} {execType : UInt8} {cron : Bytes}
    {execAt : Option Int} (h : execType = timingExecute) :
    checkTimeSettings lib now execType cron execAt = (lib.cron cron now).isSome := by
  simp only [checkTimeSettings, if_pos h]

/-- A job that is accepted and goes to the wheel at once gets a slot, unless its expression
never comes due again. -/
theorem addJob_slotted_iff (lib : Library) (now : Int) (j : JobEntity) :
    (checkTimeSettings lib now j.execType j.cron j.execAt = true →
      Slotted (addJob lib.cron now j)) ↔
      (j.execType = timingExecute → Recurs lib.cron now j.cron) := by
  by_cases htype : j.execType = timingExecute
  · rw [checkTimeSettings_timing htype, addJob_timing_slotted_iff htype, Recurs]
    cases hnext : lib.cron j.cron now with
    | none => simp
    | some next => simp [htype]
  · rw [checkTimeSettings_delay_iff htype, addJob_delay_slotted_iff htype]
    refine iff_of_true ?_ fun h => absurd h htype
    rintro ⟨t, ht, hlate⟩
    exact ⟨t, ht, by omega⟩

/-- What becomes of the job when starting it is answered with success. The schedule loads the
job again, after its state has been written. -/
def start (lib : Library) (now : Int) (jobId : Bytes) (s : Store) : Option Added :=
  let entity := getJobInfo lib jobId (s.record jobId)
  if checkTimeSettings lib now entity.execType entity.cron entity.execAt then
    some (addJob lib.cron now (getJobInfo lib jobId { s.record jobId with state := runnable }))
  else none

/-- What becomes of the job when running it is answered with success. The job that was
written is loaded again, and a panic in the request is answered with an error. -/
def run (lib : Library) (now : Int) (jobId : Bytes) (job : Draft) (s : Store) : Option Added :=
  if (job.execType = timingExecute ∨ job.execType = delayExecute) ∧
      checkTimeSettings lib now job.execType job.cron job.execAt then
    if s.jobKeys jobId then none
    else
      let added := addJob lib.cron now
        (getJobInfo lib jobId (addFields lib runnable job (s.record jobId)))
      if added = .panic then none else some added
  else none

/-- The steps of a goroutine with no other step between them. -/
def advances (lib : Library) : Nat → State → Goroutine → Option Point
  | 0, _, g => some g.point
  | n + 1, s, g =>
      match advance lib s g with
      | some (t, some point, _) => advances lib n t { g with point := point }
      | _ => none

theorem start_advances {lib : Library} {s : State} {jobId key : Bytes} {delay : Int} {job : Task}
    (h : start lib s.now jobId s.store = some (.sent delay key job)) :
    advances lib 5 s ⟨jobId, .request, .start true⟩ = some (.send job) := by
  simp only [start] at h
  split at h
  · next hcheck =>
      have hadd := Option.some.inj h
      simp [advances, advance, hcheck, hadd, State.setRecord, Store.set]
  · cases h

theorem run_advances {lib : Library} {s : State} {jobId key : Bytes} {draft : Draft} {delay : Int}
    {job : Task} (h : run lib s.now jobId draft s.store = some (.sent delay key job)) :
    advances lib 6 s ⟨jobId, .request, .create true draft⟩ = some (.send job) := by
  simp only [run] at h
  split at h
  · next hcheck =>
      split at h
      · cases h
      · next hkey =>
          split at h
          · cases h
          · have hadd := Option.some.inj h
            have hkey' : s.store.jobKeys jobId = false := by simpa using hkey
            simp [advances, advance, hcheck, hadd, hkey', State.setRecord, State.setKey, Store.set]
  · cases h

theorem getJobInfo_execAt_le {lib : Library} {jobId : Bytes} {r : Record} {now : Nat} {t : Int}
    (h : (getJobInfo lib jobId r).execAt = some t) : t < now := by
  simp only [getJobInfo] at h
  split at h
  · cases h
  · split at h
    · cases h
    · have hzero : zeroTime < 0 := by decide
      obtain rfl := Option.some.inj h
      omega

/-- A job that is started gets a slot, unless its expression never comes due again. One with
a delay is always turned down. -/
theorem start_slotted_iff (lib : Library) (now : Nat) (jobId : Bytes) (s : Store) :
    (∀ added, start lib now jobId s = some added → Slotted added) ↔
      ((s.record jobId).execType = timingExecute → Recurs lib.cron now (s.record jobId).cron) := by
  rw [start]
  by_cases htype : (s.record jobId).execType = timingExecute
  · have hadd := addJob_slotted_iff lib now
      (getJobInfo lib jobId { s.record jobId with state := runnable })
    rw [show Recurs lib.cron now (s.record jobId).cron ↔ Recurs lib.cron now
      (getJobInfo lib jobId { s.record jobId with state := runnable }).cron from Iff.rfl]
    refine Iff.trans ?_ hadd
    constructor
    · intro h hcheck
      exact h _ (if_pos hcheck)
    · intro h added hstart
      by_cases hcheck : checkTimeSettings lib now (getJobInfo lib jobId (s.record jobId)).execType
          (getJobInfo lib jobId (s.record jobId)).cron (getJobInfo lib jobId (s.record jobId)).execAt = true
      · rw [if_pos hcheck] at hstart
        exact Option.some.inj hstart ▸ h hcheck
      · rw [if_neg hcheck] at hstart
        cases hstart
  · refine iff_of_true (fun added hstart => ?_) fun h => absurd h htype
    have hnever : ¬ checkTimeSettings lib now (getJobInfo lib jobId (s.record jobId)).execType
        (getJobInfo lib jobId (s.record jobId)).cron
        (getJobInfo lib jobId (s.record jobId)).execAt = true := by
      intro hcheck
      obtain ⟨t, ht, hlate⟩ := (checkTimeSettings_delay_iff htype).mp hcheck
      have : t < now := getJobInfo_execAt_le ht
      omega
    dsimp only at hstart
    rw [if_neg hnever] at hstart
    cases hstart

/-- The text of an instant is none, or one that the parser reads. -/
def ReadsBack (lib : Library) (t : Int) : Prop :=
  lib.timeFormat t = [] ∨ lib.timeParses (lib.timeFormat t) = true

theorem run_eq_some_iff {lib : Library} {now : Int} {jobId : Bytes} {job : Draft} {s : Store}
    {added : Added} : run lib now jobId job s = some added ↔
      ((job.execType = timingExecute ∨ job.execType = delayExecute) ∧
        checkTimeSettings lib now job.execType job.cron job.execAt = true) ∧
      s.jobKeys jobId = false ∧ added ≠ .panic ∧
      addJob lib.cron now (getJobInfo lib jobId (addFields lib runnable job (s.record jobId))) =
        added := by
  simp only [run]
  by_cases hcheck : (job.execType = timingExecute ∨ job.execType = delayExecute) ∧
      checkTimeSettings lib now job.execType job.cron job.execAt = true
  · rw [if_pos hcheck, and_iff_right hcheck]
    cases s.jobKeys jobId with
    | false =>
        rw [if_neg Bool.false_ne_true, and_iff_right rfl]
        split
        · next hpanic => exact iff_of_false (by simp) fun h => h.1 (h.2.symm.trans hpanic)
        · next hadd =>
            rw [Option.some.injEq]
            exact ⟨fun h => ⟨h ▸ hadd, h⟩, And.right⟩
    | true => simp
  · rw [if_neg hcheck]
    exact iff_of_false (by simp) fun h => hcheck h.1

theorem run_slotted_iff (lib : Library) (now : Nat) (jobId : Bytes) (job : Draft) (s : Store) :
    (∀ added, run lib now jobId job s = some added → Slotted added) ↔
      (s.jobKeys jobId = false →
        (job.execType = timingExecute → Recurs lib.cron now job.cron) ∧
        (job.execType = delayExecute → ∀ t, job.execAt = some t → 5 < t - now → ReadsBack lib t)) := by
  let j := getJobInfo lib jobId (addFields lib runnable job (s.record jobId))
  have hany : (∀ added, run lib now jobId job s = some added → Slotted added) ↔
      ((job.execType = timingExecute ∨ job.execType = delayExecute) ∧
        checkTimeSettings lib now job.execType job.cron job.execAt = true →
      s.jobKeys jobId = false → addJob lib.cron now j ≠ .panic → Slotted (addJob lib.cron now j)) := by
    constructor
    · intro h hcheck hkey hadd
      exact h _ (run_eq_some_iff.mpr ⟨hcheck, hkey, hadd, rfl⟩)
    · intro h added hrun
      obtain ⟨hcheck, hkey, hadd, rfl⟩ := run_eq_some_iff.mp hrun
      exact h hcheck hkey hadd
  rw [hany, forall_comm]
  apply forall_congr'
  intro hkey
  by_cases htiming : job.execType = timingExecute
  · have htype : j.execType = timingExecute := htiming
    have hdelay : job.execType ≠ delayExecute := by rw [htiming]; decide
    rw [checkTimeSettings_timing htiming, addJob_timing_slotted_iff htype, Recurs]
    cases hnext : lib.cron job.cron now with
    | none => simp [hdelay]
    | some next =>
        have hne : job.cron ≠ [] := by
          intro hnil
          rw [hnil, lib.cron_nil] at hnext
          cases hnext
        have hcron : j.cron = job.cron := by simp [j, getJobInfo, addFields, hne]
        have hpanic : addJob lib.cron now j ≠ .panic := by
          rw [addJob, if_pos htype, resolveCron, hcron, hnext]
          cases next with
          | none => simp
          | some t => simp only [Option.map_some, addToWheel]; split <;> simp
        simp [hcron, hnext, htiming, hpanic, timingExecute, delayExecute]
  · have htype : j.execType ≠ timingExecute := htiming
    by_cases hdelay : job.execType = delayExecute
    · rw [checkTimeSettings_delay_iff htiming, addJob_delay_slotted_iff htype]
      refine ⟨fun h => ⟨fun ht => absurd ht htiming, fun _ t ht hlate => ?_⟩, ?_⟩
      · by_contra hread
        rw [ReadsBack, not_or] at hread
        have hzero : j.execAt = some zeroTime := by
          simp [j, getJobInfo, addFields, ht, hread.1, hread.2]
        have hpanic : addJob lib.cron now j ≠ .panic := by
          rw [addJob, if_neg htype, hzero]
          simp only [addToWheel]
          split
          · simp
          · split <;> simp
        obtain ⟨u, hu, hlt⟩ := h ⟨.inr hdelay, t, ht, hlate⟩ hpanic
        have : u < now := getJobInfo_execAt_le hu
        omega
      · rintro h ⟨-, t, ht, hlate⟩ hpanic
        have hnone : j.execAt = none := by
          rcases h.2 hdelay t ht hlate with hread | hread
          · simp [j, getJobInfo, addFields, ht, hread]
          · simp [j, getJobInfo, addFields, ht, hread]
        rw [addJob, if_neg htype, hnone] at hpanic
        exact absurd rfl hpanic
    · simp [htiming, hdelay]

/-- What is accepted gets a slot in the wheel, unless its expression never comes due again. A
job that is run is also turned into one whose instant has passed if the parser does not read
the text of its instant. -/
theorem accepted_slotted_iff (lib : Library) :
    (∀ (now : Int) (j : JobEntity),
      (checkTimeSettings lib now j.execType j.cron j.execAt = true →
        Slotted (addJob lib.cron now j)) ↔
        (j.execType = timingExecute → Recurs lib.cron now j.cron)) ∧
    (∀ (now : Nat) (jobId : Bytes) (s : Store),
      (∀ added, start lib now jobId s = some added → Slotted added) ↔
        ((s.record jobId).execType = timingExecute → Recurs lib.cron now (s.record jobId).cron)) ∧
    ∀ (now : Nat) (jobId : Bytes) (job : Draft) (s : Store),
      (∀ added, run lib now jobId job s = some added → Slotted added) ↔
        (s.jobKeys jobId = false →
          (job.execType = timingExecute → Recurs lib.cron now job.cron) ∧
          (job.execType = delayExecute → ∀ t, job.execAt = some t → 5 < t - now → ReadsBack lib t)) :=
  ⟨addJob_slotted_iff lib, start_slotted_iff lib, run_slotted_iff lib⟩

def past : Library where
  cron str _ := if str = [] then none else some none
  cron_nil _ := rfl
  timeFormat _ := []
  timeParses _ := false

/-- The expression of the test for the year 2021. -/
theorem past_accepted :
    ¬ ∀ (lib : Library) (now : Int) (j : JobEntity),
      checkTimeSettings lib now j.execType j.cron j.execAt = true →
        addJob lib.cron now j ≠ .error ∧ addJob lib.cron now j ≠ .panic := by
  intro h
  refine (h past 0 ⟨bytes "job", bytes "0 15 8 ? * * 2021", none, 0, 0⟩ (by decide)).1 ?_
  simp [addJob, resolveCron, past, timingExecute, bytes]

/-- Whether the time settings of an update are turned down. They are judged with the execution
type of the updated job, and with the other fields of the request alone. -/
def refuses (lib : Library) (now : Int) (entity : JobEntity) (change : Change) : Bool :=
  ¬ checkTimeSettings lib now (change.execType.getD entity.execType) (change.cron.getD [])
    change.execAt

theorem advance_update (lib : Library) (s : State) (jobId : Bytes) (kind : Kind) (change : Change) :
    advance lib s ⟨jobId, kind, .update change⟩ =
      some (s, if refuses lib s.now (getJobInfo lib jobId (s.store.record jobId)) change then none
        else some (.updateJob change), false) := by
  simp only [advance, refuses, getJobInfo]
  split
  · next hcheck => simp [hcheck]
  · next hcheck => simp [hcheck]

theorem handle_update_refused {w : Cluster.World} {now : Int} {store : MultiNode.Store}
    {jobId : Bytes} {entity : JobEntity} {change : Change}
    (hentity : MultiNode.getJobInfo store jobId = some entity)
    (h : refuses w.lib now entity change = true) :
    Cluster.handle w now store (.update jobId change) = none := by
  rw [refuses, decide_eq_true_eq] at h
  simp [Cluster.handle, hentity, h]

def merge (entity : JobEntity) (change : Change) : JobEntity :=
  { entity with
    cron := change.cron.getD entity.cron
    execAt := change.execAt.or entity.execAt
    execType := change.execType.getD entity.execType }

def Valid (lib : Library) (now : Int) (j : JobEntity) : Prop :=
  checkTimeSettings lib now j.execType j.cron j.execAt = true

/-- The request names the field that the merged job is judged by, or the stored job has no
valid one either. -/
def Judged (lib : Library) (now : Int) (entity : JobEntity) (change : Change) : Prop :=
  if change.execType.getD entity.execType = timingExecute then
    change.cron ≠ none ∨ lib.cron entity.cron now = none
  else change.execAt ≠ none ∨ ∀ t, entity.execAt = some t → t - now ≤ 5

/-- An update is judged as the updated job is if and only if it names what that is judged by,
unless this is not valid in the stored job. -/
theorem refuses_iff_merged_iff (lib : Library) (now : Int) (entity : JobEntity) (change : Change) :
    (refuses lib now entity change = true ↔ ¬ Valid lib now (merge entity change)) ↔
      Judged lib now entity change := by
  have hrefuses : refuses lib now entity change = true ↔
      ¬ checkTimeSettings lib now (change.execType.getD entity.execType) (change.cron.getD [])
        change.execAt = true := by
    rw [refuses, decide_eq_true_eq]
  rw [hrefuses, not_iff_not, Valid, merge, Judged]
  dsimp only
  split
  · next htype =>
      rw [checkTimeSettings_timing htype, checkTimeSettings_timing htype]
      cases change.cron with
      | none => simp [lib.cron_nil]
      | some cron => simp
  · next htype =>
      rw [checkTimeSettings_delay_iff htype, checkTimeSettings_delay_iff htype]
      cases change.execAt with
      | none => simp
      | some t => simp

/-- A new name for a job that is due in a minute. -/
theorem rename_refused :
    ¬ ∀ (lib : Library) (now : Int) (entity : JobEntity) (change : Change),
      refuses lib now entity change = true ↔ ¬ Valid lib now (merge entity change) := by
  intro h
  have hrename := h everyMinute 0 ⟨bytes "job", bytes "* * * * *", none, timingExecute, stop⟩
    ⟨none, none, none, none⟩
  exact absurd hrename (by
    rw [iff_iff_eq]
    simp [refuses, Valid, merge, checkTimeSettings, everyMinute, bytes])

end Traitor.TimeSettings
