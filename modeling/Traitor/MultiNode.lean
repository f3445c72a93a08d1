import Traitor.ConsistentHash
import Traitor.Schedule

namespace Traitor.MultiNode

open ConsistentHash Schedule

def replicaCount : Nat := 50

abbrev Store := List JobEntity

def getJobInfo (store : Store) (jobId : Bytes) : Option JobEntity :=
  store.find? (fun j => j.jobId = jobId)

/-- The projection of this query has no execution type, time and state. -/
def getRunnableJobs (store : Store) : List JobEntity :=
  (store.filter (fun j => j.state = runnable)).map fun j =>
    { j with execAt := none, execType := 0, state := 0 }

/-- The wheel holds the tasks that wait for their tick by the id of their job. -/
structure Node where
  nodeId : Bytes
  consistentMap : Map
  timeWheel : List (Bytes × Task)

structure Env where
  cron : Cron
  now : Int
  store : Store

def removeJob (s : Node) (key : Bytes) : Node :=
  { s with timeWheel := s.timeWheel.filter (fun waiting => ¬ waiting.1 = key) }

/-- None is a panic, and the flag tells whether there was no error. -/
def addJob (env : Env) (s : Node) (j : JobEntity) : Option (Node × Bool) :=
  match Schedule.addJob env.cron env.now j with
  | .panic => none
  | .error => some (s, false)
  | .dropped => some (s, true)
  | .sent _ key job =>
      let s := removeJob s key
      some ({ s with timeWheel := s.timeWheel ++ [(key, job)] }, true)

def jobAdd (key : Bytes) : Bytes := bytes "jobAdd:" ++ key

def jobCancel (key : Bytes) : Bytes := bytes "jobCancel:" ++ key

def handleAddJob (env : Env) (s : Node) (j : JobEntity) : Option (Node × List Bytes) :=
  (addJob env s j).map fun (s, ok) => (s, if ok then [jobAdd j.jobId] else [])

def cancelJob (s : Node) (key : Bytes) : Node × List Bytes := (removeJob s key, [jobCancel key])

def handleJobStateChange (env : Env) (s : Node) (key : Bytes) (state : UInt8) :
    Option (Node × List Bytes) :=
  if state = runnable then
    match getJobInfo env.store key with
    | none => some (s, [])
    | some job => handleAddJob env s job
  else some (cancelJob s key)

/-- A job that cannot be loaded is logged, and the zero entity is added. -/
def handleSubEvent (env : Env) (s : Node) (payload : Bytes) : Option Node :=
  if bytes "jobAdd" <:+: payload then do
    let id ← (payload.splitOn 58)[1]?
    (addJob env s ((getJobInfo env.store id).getD .zero)).map Prod.fst
  else if bytes "jobCancel" <:+: payload then do
    let id ← (payload.splitOn 58)[1]?
    some (removeJob s id)
  else some s

def initJobs (env : Env) (s : Node) : Option Node :=
  (getRunnableJobs env.store).foldlM (fun s j => (addJob env s j).map Prod.fst) s

/-- This method is in no method set through which a job gets into the wheel. -/
def createTask (key : Bytes) (execType : UInt8) : Task :=
  .guarded key (Schedule.createTask key execType)

def executable (s : Node) (key : Bytes) : Bool := s.consistentMap.get key = s.nodeId

/-- The script of a job is started by its closure if it can be loaded. -/
def starts (store : Store) (s : Node) : Task → Bool
  | .exec key => (getJobInfo store key).isSome
  | .timing key => (getJobInfo store key).isSome
  | .guarded key fn => if executable s key then starts store s fn else false

/-- The ways by which `addJob` is called and the ring is replaced. -/
inductive Entry
  | stateChange (key : Bytes) (state : UInt8)
  | subEvent (payload : Bytes)
  | init
  | sync (ids : List Bytes)

def ring (ids : List Bytes) : Map := (new replicaCount none).add ids

def enter (env : Env) (s : Node) : Entry → Option Node
  | .stateChange key state => (handleJobStateChange env s key state).map Prod.fst
  | .subEvent payload => handleSubEvent env s payload
  | .init => initJobs env s
  | .sync ids => some { s with consistentMap := ring ids }

inductive Reachable : Node → Prop
  | make (nodeId : Bytes) (m : Map) : Reachable ⟨nodeId, m, []⟩
  | enter {s s' : Node} (env : Env) (entry : Entry) (h : Reachable s)
      (hs : enter env s entry = some s') : Reachable s'

/-- The nodes on which the script is started when the job comes due on all of them. -/
def runners (store : Store) (nodes : List Node) (jobId : Bytes) : List Node :=
  nodes.filter fun s => (s.timeWheel.lookup jobId).any (starts store s)

def RunsOnOwner (store : Store) (nodes : List Node) (ids : List Bytes) (jobId : Bytes) : Prop :=
  ∃ s, runners store nodes jobId = [s] ∧ s.nodeId = (ring ids).get jobId

/-- No closure in the wheel asks for the owner. -/
def Unguarded (s : Node) : Prop :=
  ∀ waiting ∈ s.timeWheel, waiting.2 = .exec waiting.1 ∨ waiting.2 = .timing waiting.1

theorem removeJob_unguarded {s : Node} (h : Unguarded s) (key : Bytes) :
    Unguarded (removeJob s key) := fun waiting hw => h waiting (List.mem_filter.mp hw).1

theorem addJob_unguarded {env : Env} {s s' : Node} {j : JobEntity} {ok : Bool} (h : Unguarded s)
    (ha : addJob env s j = some (s', ok)) : Unguarded s' := by
  rw [addJob] at ha
  split at ha
  · simp at ha
  · simp only [Option.some.injEq, Prod.mk.injEq] at ha
    exact ha.1 ▸ h
  · simp only [Option.some.injEq, Prod.mk.injEq] at ha
    exact ha.1 ▸ h
  · rename_i delay key job hsent
    obtain ⟨-, rfl, rfl⟩ := addJob_sent hsent
    simp only [Option.some.injEq, Prod.mk.injEq] at ha
    rw [← ha.1]
    intro waiting hw
    rcases List.mem_append.mp hw with hw | hw
    · exact removeJob_unguarded h _ waiting hw
    · rw [List.mem_singleton.mp hw, Schedule.createTask]
      split
      · exact Or.inl rfl
      · exact Or.inr rfl

theorem handleJobStateChange_unguarded {env : Env} {s s' : Node} {key : Bytes} {state : UInt8}
    {published : List Bytes} (h : Unguarded s)
    (hs : handleJobStateChange env s key state = some (s', published)) : Unguarded s' := by
  rw [handleJobStateChange] at hs
  split at hs
  · split at hs
    · simp only [Option.some.injEq, Prod.mk.injEq] at hs
      exact hs.1 ▸ h
    · obtain ⟨⟨s₁, ok⟩, ha, he⟩ := Option.map_eq_some_iff.mp hs
      simp only [Prod.mk.injEq] at he
      exact he.1 ▸ addJob_unguarded h ha
  · simp only [cancelJob, Option.some.injEq, Prod.mk.injEq] at hs
    exact hs.1 ▸ removeJob_unguarded h key

theorem handleSubEvent_unguarded {env : Env} {s s' : Node} {payload : Bytes} (h : Unguarded s)
    (hs : handleSubEvent env s payload = some s') : Unguarded s' := by
  rw [handleSubEvent] at hs
  split at hs
  · obtain ⟨id, -, hs⟩ := Option.bind_eq_some_iff.mp hs
    obtain ⟨⟨s₁, ok⟩, ha, he⟩ := Option.map_eq_some_iff.mp hs
    exact he ▸ addJob_unguarded h ha
  · split at hs
    · obtain ⟨id, -, hs⟩ := Option.bind_eq_some_iff.mp hs
      exact Option.some.inj hs ▸ removeJob_unguarded h id
    · exact Option.some.inj hs ▸ h

theorem initJobs_unguarded {env : Env} {s s' : Node} (h : Unguarded s)
    (hs : initJobs env s = some s') : Unguarded s' := by
  rw [initJobs] at hs
  generalize getRunnableJobs env.store = jobs at hs
  induction jobs generalizing s with
  | nil =>
      simp only [List.foldlM_nil, Option.pure_def, Option.some.injEq] at hs
      exact hs ▸ h
  | cons j jobs ih =>
      rw [List.foldlM_cons] at hs
      obtain ⟨s₁, ha, hs⟩ := Option.bind_eq_some_iff.mp hs
      obtain ⟨⟨s₂, ok⟩, ha', rfl⟩ := Option.map_eq_some_iff.mp ha
      exact ih (addJob_unguarded h ha') hs

theorem enter_unguarded {env : Env} {s s' : Node} {entry : Entry} (h : Unguarded s)
    (hs : enter env s entry = some s') : Unguarded s' := by
  cases entry with
  | stateChange key state =>
      obtain ⟨⟨s₁, published⟩, hs', rfl⟩ := Option.map_eq_some_iff.mp hs
      exact handleJobStateChange_unguarded h hs'
  | subEvent payload => exact handleSubEvent_unguarded h hs
  | init => exact initJobs_unguarded h hs
  | sync ids =>
      obtain rfl := Option.some.inj hs
      exact h

theorem Reachable.unguarded {s : Node} (h : Reachable s) : Unguarded s := by
  induction h with
  | make nodeId m => exact fun waiting hw => absurd hw List.not_mem_nil
  | enter env entry _ hs ih => exact enter_unguarded ih hs

/-- Every node that has the job in its wheel starts the script. -/
theorem runners_eq {store : Store} {nodes : List Node} {jobId : Bytes}
    (hreach : ∀ s ∈ nodes, Reachable s) (hput : ∀ s ∈ nodes, jobId ∈ s.timeWheel.map Prod.fst)
    (hscript : (getJobInfo store jobId).isSome) : runners store nodes jobId = nodes := by
  rw [runners, List.filter_eq_self]
  intro s hs
  obtain ⟨waiting, hw, rfl⟩ := List.mem_map.mp (hput s hs)
  have hne : s.timeWheel.lookup waiting.1 ≠ none := by
    rw [ne_eq, List.lookup_eq_none_iff]
    intro hnone
    exact absurd (hnone waiting hw) (by simp)
  obtain ⟨task, htask⟩ := Option.ne_none_iff_exists'.mp hne
  rw [htask]
  obtain ⟨l₁, l₂, hsplit, -⟩ := List.lookup_eq_some_iff.mp htask
  have hun := (hreach s hs).unguarded (waiting.1, task) (by simp [hsplit])
  rw [Option.any_some]
  rcases hun with he | he
  · exact (congrArg (starts store s) he).trans hscript
  · exact (congrArg (starts store s) he).trans hscript

/-- A job that is due on all nodes is run by its owner alone exactly when there is
only one node. -/
theorem runsOnOwner_iff_single (store : Store) (nodes : List Node) (ids : List Bytes)
    (jobId : Bytes) (hpos : nodes ≠ []) (hids : ids ≠ [])
    (hlive : ∀ id ∈ ids, ∃ s ∈ nodes, s.nodeId = id)
    (hring : ∀ s ∈ nodes, s.consistentMap = ring ids) (hreach : ∀ s ∈ nodes, Reachable s)
    (hput : ∀ s ∈ nodes, jobId ∈ s.timeWheel.map Prod.fst)
    (hscript : (getJobInfo store jobId).isSome) :
    RunsOnOwner store nodes ids jobId ↔ nodes.length = 1 := by
  rw [RunsOnOwner, runners_eq hreach hput hscript]
  constructor
  · rintro ⟨s, rfl, -⟩
    rfl
  · intro hlen
    obtain ⟨s, rfl⟩ := List.length_eq_one_iff.mp hlen
    obtain ⟨s', hs', he⟩ := hlive _ (@get_mem _ replicaCount (by decide) none hids jobId)
    rw [List.mem_singleton.mp hs'] at he
    exact ⟨s, rfl, he⟩

def minutely : Cron := fun _ now => some (some (now + 60 * second))

def oneJob : Store := [⟨bytes "job", bytes "* * * * *", none, timingExecute, runnable⟩]

def enabled (nodeId : Bytes) (ids : List Bytes) : Node :=
  ⟨nodeId, ring ids, [(bytes "job", .timing (bytes "job"))]⟩

theorem enabled_reachable (nodeId : Bytes) (ids : List Bytes) : Reachable (enabled nodeId ids) :=
  .enter ⟨minutely, 0, oneJob⟩ (.stateChange (bytes "job") runnable) (.make nodeId (ring ids)) rfl

theorem runsOnOwner_iff_single_enabled :
    RunsOnOwner oneJob [enabled (bytes "a") [bytes "a"]] [bytes "a"] (bytes "job") ↔
      [enabled (bytes "a") [bytes "a"]].length = 1 :=
  runsOnOwner_iff_single oneJob [enabled (bytes "a") [bytes "a"]] [bytes "a"] (bytes "job")
    (by simp) (by simp) (by simp [enabled]) (by simp [enabled])
    (by simpa using enabled_reachable (bytes "a") [bytes "a"]) (by simp [enabled]) rfl

/-- On two nodes that agree on the ring both start the script of the job. -/
theorem not_runsOnOwner_two :
    (∀ s ∈ [enabled (bytes "a") [bytes "a", bytes "b"], enabled (bytes "b") [bytes "a", bytes "b"]],
      Reachable s ∧ s.consistentMap = ring [bytes "a", bytes "b"] ∧
        bytes "job" ∈ s.timeWheel.map Prod.fst) ∧
    ¬ RunsOnOwner oneJob
      [enabled (bytes "a") [bytes "a", bytes "b"], enabled (bytes "b") [bytes "a", bytes "b"]]
      [bytes "a", bytes "b"] (bytes "job") := by
  have hnodes : ∀ s ∈ [enabled (bytes "a") [bytes "a", bytes "b"],
      enabled (bytes "b") [bytes "a", bytes "b"]], Reachable s ∧
        s.consistentMap = ring [bytes "a", bytes "b"] ∧
        bytes "job" ∈ s.timeWheel.map Prod.fst := by
    intro s hs
    rcases List.mem_pair.mp hs with rfl | rfl
    · exact ⟨enabled_reachable _ _, rfl, by simp [enabled]⟩
    · exact ⟨enabled_reachable _ _, rfl, by simp [enabled]⟩
  refine ⟨hnodes, ?_⟩
  rintro ⟨s, hs, -⟩
  rw [runners_eq (fun s hs => (hnodes s hs).1) (fun s hs => (hnodes s hs).2.2) rfl] at hs
  simp at hs

end Traitor.MultiNode
