import Traitor.Cluster

namespace Traitor.Cluster

open Schedule MultiNode

variable {w : World} {env : Env} {s s' : Node} {store : Store} {k key : Bytes}

def Sent (env : Env) (j : JobEntity) : Prop :=
  ∃ delay key job, Schedule.addJob env.cron env.now j = .sent delay key job

/-- What a subscriber takes a payload for: whether it is to add, and the id. -/
def heard (payload : Bytes) : Option (Bool × Bytes) :=
  if bytes "jobAdd" <:+: payload then (payload.splitOn 58)[1]?.map fun id => (true, id)
  else if bytes "jobCancel" <:+: payload then (payload.splitOn 58)[1]?.map fun id => (false, id)
  else none

/-- The message that is delivered next sets the job right. -/
def Member.Pending (m : Member) (store : Store) (key : Bytes) : Prop :=
  m.waiting = true ∧ ∃ payload queue b, m.queue = payload :: queue ∧
    heard payload = some (b, key) ∧ (b = true ↔ Runnable store key)

structure Agrees (store : Store) (m : Member) : Prop where
  connected : m.synced = true → m.connected = true
  keepAlive : m.synced = true → m.keepAlive = true
  held : m.alive = true → m.synced = true → ∀ key,
    (Holds m.node key ↔ Runnable store key) ∨ m.Pending store key

def Call.jobId : Call → Bytes
  | .handleJobStateChange jobId _ | .handleJobTimeChange jobId | .remove jobId => jobId

def Call.Adds : Call → Prop
  | .handleJobStateChange _ state => state = runnable
  | .handleJobTimeChange _ => True
  | .remove _ => False

def Call.Puts (env : Env) (called : Call) : Prop :=
  called.Adds ∧ ∃ j, getJobInfo env.store called.jobId = some j ∧ Sent env j

def Call.payload (w : World) : Call → Bytes
  | .handleJobStateChange key state => if state = runnable then jobAdd key else jobCancel key
  | .handleJobTimeChange key => w.sprintf (jobAdd key)
  | .remove key => jobCancel key

def Call.Tells (env : Env) : Call → Prop
  | .handleJobStateChange key state => state = runnable → ∃ j, getJobInfo env.store key = some j ∧
      match Schedule.addJob env.cron env.now j with
      | .sent _ _ _ | .dropped => True
      | .panic | .error => False
  | .handleJobTimeChange key => ∀ j, getJobInfo env.store key = some j →
      Schedule.addJob env.cron env.now j ≠ .panic
  | .remove _ => True

theorem holds_removeJob : Holds (MultiNode.removeJob s k) key ↔ Holds s key ∧ key ≠ k := by
  simp [Holds, MultiNode.removeJob]

theorem addJob_holds {j : JobEntity} {ok : Bool} (h : MultiNode.addJob env s j = some (s', ok)) :
    Holds s' key ↔ Holds s key ∨ key = j.jobId ∧ Sent env j := by
  rw [MultiNode.addJob] at h
  split at h
  · simp at h
  · rename_i hadd
    obtain ⟨rfl, -⟩ := h
    simp [Sent, hadd]
  · rename_i hadd
    obtain ⟨rfl, -⟩ := h
    simp [Sent, hadd]
  · rename_i d k job hadd
    obtain ⟨-, rfl, -⟩ := addJob_sent hadd
    obtain ⟨rfl, -⟩ := h
    have hsent : Sent env j := ⟨d, j.jobId, job, hadd⟩
    by_cases hk : key = j.jobId
    · simp [Holds, MultiNode.removeJob, hk, hsent]
    · simp [Holds, MultiNode.removeJob, hk]

theorem getJobInfo_jobId {j : JobEntity} (h : getJobInfo store key = some j) : j.jobId = key := by
  simpa using List.find?_some h

theorem addJob_of_getJobInfo {j : JobEntity} {ok : Bool} (hj : getJobInfo env.store key = some j)
    (ha : MultiNode.addJob env s j = some (s', ok)) :
    (Holds s' key ↔ Holds s key ∨ Sent env j) ∧ ∀ k, k ≠ key → (Holds s' k ↔ Holds s k) := by
  have hid := getJobInfo_jobId hj
  refine ⟨by rw [addJob_holds ha, hid]; simp, fun k' hk => ?_⟩
  rw [addJob_holds ha, hid]
  simp [hk]

theorem cancelJob_holds : ¬ Holds (cancelJob s key).1 key ∧
    ∀ k, k ≠ key → (Holds (cancelJob s key).1 k ↔ Holds s k) := by
  refine ⟨fun h => ?_, fun k hk => ?_⟩
  · exact (holds_removeJob.mp h).2 rfl
  · rw [cancelJob, holds_removeJob]
    simp [hk]

theorem handleJobStateChange_holds {state : UInt8} {payloads : List Bytes}
    (h : handleJobStateChange env s key state = some (s', payloads)) :
    (Holds s' key ↔ state = runnable ∧ (Holds s key ∨
        ∃ j, getJobInfo env.store key = some j ∧ Sent env j)) ∧
      ∀ k, k ≠ key → (Holds s' k ↔ Holds s k) := by
  rw [handleJobStateChange] at h
  split at h
  · rename_i hstate
    split at h
    · rename_i hnone
      obtain ⟨rfl, -⟩ := h
      simp [hstate, hnone]
    · rename_i j hj
      obtain ⟨⟨t, ok⟩, ha, he⟩ := Option.map_eq_some_iff.mp h
      obtain ⟨rfl, -⟩ := Prod.mk.injEq _ _ _ _ ▸ he
      simpa [hstate, hj] using addJob_of_getJobInfo hj ha
  · rename_i hstate
    obtain ⟨rfl, -⟩ := h
    simpa [hstate, cancelJob] using cancelJob_holds (s := s)

theorem handleJobTimeChange_holds {payloads : List Bytes}
    (h : handleJobTimeChange w env s key = some (s', payloads)) :
    (Holds s' key ↔ Holds s key ∨ ∃ j, getJobInfo env.store key = some j ∧ Sent env j) ∧
      ∀ k, k ≠ key → (Holds s' k ↔ Holds s k) := by
  rw [handleJobTimeChange] at h
  split at h
  · rename_i hnone
    obtain ⟨rfl, -⟩ := h
    simp [hnone]
  · rename_i j hj
    obtain ⟨⟨t, ok⟩, ha, he⟩ := Option.map_eq_some_iff.mp h
    obtain ⟨rfl, -⟩ := Prod.mk.injEq _ _ _ _ ▸ he
    simpa [hj] using addJob_of_getJobInfo hj ha

theorem call_holds {called : Call} {payloads : List Bytes}
    (h : call w env s called = some (s', payloads)) :
    (Holds s' called.jobId ↔ called.Adds ∧ Holds s called.jobId ∨ called.Puts env) ∧
      ∀ k, k ≠ called.jobId → (Holds s' k ↔ Holds s k) := by
  cases called with
  | handleJobStateChange key state =>
      rw [Call.Puts, ← and_or_left]
      exact handleJobStateChange_holds h
  | handleJobTimeChange key =>
      simp only [Call.Puts, Call.Adds, Call.jobId, true_and]
      rw [call] at h
      cases hc : handleJobTimeChange w env s key with
      | none =>
          rw [hc] at h
          obtain ⟨rfl, -⟩ := h
          have hpanic : ¬ ∃ j, getJobInfo env.store key = some j ∧ Sent env j := by
            rintro ⟨j, hj, d, k, job, hadd⟩
            simp [handleJobTimeChange, hj, MultiNode.addJob, hadd] at hc
          simp [hpanic]
      | some r =>
          obtain ⟨t, ps⟩ := r
          rw [hc] at h
          obtain ⟨rfl, -⟩ := h
          exact handleJobTimeChange_holds hc
  | remove key =>
      obtain ⟨rfl, -⟩ := h
      simpa [Call.Puts, Call.Adds, Call.jobId, cancelJob] using cancelJob_holds (s := s)

theorem call_tells {called : Call} {payloads : List Bytes}
    (h : call w env s called = some (s', payloads)) (ht : called.Tells env) :
    payloads = [called.payload w] := by
  cases called with
  | handleJobStateChange key state =>
      rw [call, handleJobStateChange] at h
      split at h
      · rename_i hstate
        obtain ⟨j, hj, hadd⟩ := ht hstate
        rw [hj] at h
        obtain ⟨⟨t, ok⟩, ha, he⟩ := Option.map_eq_some_iff.mp h
        obtain ⟨-, rfl⟩ := Prod.mk.injEq _ _ _ _ ▸ he
        have hok : ok = true := by
          rw [MultiNode.addJob] at ha
          split at ha <;> simp_all
        simp [hok, Call.payload, hstate, getJobInfo_jobId hj]
      · rename_i hstate
        obtain ⟨-, rfl⟩ := h
        simp [Call.payload, hstate]
  | handleJobTimeChange key =>
      rw [call] at h
      cases hj : getJobInfo env.store key with
      | none =>
          simp only [handleJobTimeChange, hj, Option.getD_some, Option.some.injEq,
            Prod.mk.injEq] at h
          exact h.2.symm
      | some j =>
          have hadd := ht j hj
          have hsome : ∃ t ok, MultiNode.addJob env s j = some (t, ok) := by
            rw [MultiNode.addJob]
            split <;> simp_all
          obtain ⟨t, ok, ha⟩ := hsome
          simp only [handleJobTimeChange, hj, ha, Option.map_some, Option.getD_some,
            Option.some.injEq, Prod.mk.injEq] at h
          exact h.2.symm
  | remove key =>
      obtain ⟨-, rfl⟩ := h
      rfl

theorem initJobs_holds (h : initJobs env s = some s') :
    Holds s' key ↔ Holds s key ∨ ∃ j ∈ getRunnableJobs env.store, j.jobId = key ∧ Sent env j := by
  rw [initJobs] at h
  generalize getRunnableJobs env.store = jobs at h
  induction jobs generalizing s with
  | nil =>
      obtain rfl := Option.some.inj h
      simp
  | cons j jobs ih =>
      rw [List.foldlM_cons] at h
      obtain ⟨t, ha, h⟩ := Option.bind_eq_some_iff.mp h
      obtain ⟨⟨t', ok⟩, ha', rfl⟩ := Option.map_eq_some_iff.mp ha
      rw [ih h, addJob_holds ha', or_assoc]
      simp [eq_comm]

/-- A job to add that cannot be loaded ends the process. -/
theorem handleSubEvent_holds {payload : Bytes} (hnil : ∀ t, env.cron [] t = none)
    (h : handleSubEvent env s payload = some s') :
    match heard payload with
    | none => s' = s
    | some (true, id) => ∃ j, getJobInfo env.store id = some j ∧
        (Holds s' id ↔ Holds s id ∨ Sent env j) ∧ ∀ k, k ≠ id → (Holds s' k ↔ Holds s k)
    | some (false, id) => ¬ Holds s' id ∧ ∀ k, k ≠ id → (Holds s' k ↔ Holds s k) := by
  rw [handleSubEvent] at h
  rw [heard]
  split at h
  · rename_i hadd
    obtain ⟨id, hid, h⟩ := Option.bind_eq_some_iff.mp h
    obtain ⟨⟨t, ok⟩, ha, rfl⟩ := Option.map_eq_some_iff.mp h
    rw [if_pos hadd, hid]
    cases hj : getJobInfo env.store id with
    | none =>
        rw [hj] at ha
        simp [MultiNode.addJob, Schedule.addJob, JobEntity.zero, resolveCron, hnil, timingExecute]
          at ha
    | some j =>
        rw [hj] at ha
        exact ⟨j, hj, addJob_of_getJobInfo hj ha⟩
  · rename_i hadd
    split at h
    · rename_i hcancel
      obtain ⟨id, hid, h⟩ := Option.bind_eq_some_iff.mp h
      obtain rfl := Option.some.inj h
      rw [if_neg hadd, if_pos hcancel, hid]
      exact cancelJob_holds
    · rename_i hcancel
      obtain rfl := Option.some.inj h
      rw [if_neg hadd, if_neg hcancel]

theorem updateJob_runnable {fields : Fields} {store' : Store}
    (h : updateJob w key fields store = some store') (hk : k ≠ key) :
    Runnable store' k ↔ Runnable store k := by
  induction store generalizing store' with
  | nil => simp [updateJob] at h
  | cons j store ih =>
      rw [updateJob] at h
      split at h
      · rename_i hid
        obtain ⟨j', hj', rfl⟩ := Option.map_eq_some_iff.mp h
        have hid' : j'.jobId = key := (w.findOneAndUpdate_jobId _ _ _ hj').trans hid
        have hne : ¬ key = k := fun he => hk he.symm
        simp [Runnable, hid, hid', hne]
      · obtain ⟨rest, hrest, rfl⟩ := Option.map_eq_some_iff.mp h
        have := ih hrest
        simp only [Runnable] at this
        simp [Runnable, this]

theorem removeJob_runnable (hk : k ≠ key) : Runnable (removeJob store key) k ↔ Runnable store k := by
  have hmem (j : JobEntity) (hj : j.jobId = k) : j ∈ removeJob store key ↔ j ∈ store := by
    apply List.mem_eraseP_of_neg
    simpa [hj] using hk
  constructor
  · rintro ⟨j, hj, hid, hstate⟩
    exact ⟨j, (hmem j hid).mp hj, hid, hstate⟩
  · rintro ⟨j, hj, hid, hstate⟩
    exact ⟨j, (hmem j hid).mpr hj, hid, hstate⟩

/-- A request changes only what is stored of its job. -/
theorem handle_runnable {now : Int} {r : Request} {store' : Store} {called : Call}
    (h : handle w now store r = some (store', called)) (hk : k ≠ called.jobId) :
    Runnable store' k ↔ Runnable store k := by
  cases r with
  | start jobId enable =>
      simp only [handle] at h
      split at h
      · simp at h
      · split at h
        · simp at h
        · simp only [Option.some.injEq, Prod.mk.injEq] at h
          obtain ⟨rfl, rfl⟩ := h
          cases hu : updateJob w jobId (.state (if enable then runnable else stop)) store with
          | none => rfl
          | some store' => exact updateJob_runnable hu hk
  | update jobId change =>
      simp only [handle] at h
      split at h
      · simp at h
      · split at h
        · simp at h
        · obtain ⟨store'', hu, he⟩ := Option.map_eq_some_iff.mp h
          simp only [Prod.mk.injEq] at he
          obtain ⟨rfl, rfl⟩ := he
          exact updateJob_runnable hu hk
  | remove jobId =>
      obtain ⟨rfl, rfl⟩ := h
      exact removeJob_runnable hk

variable {ι : Type} [DecidableEq ι] {c d : State ι}

/-- A call that leaves the wheels right: the wheel of the node itself, and each other one,
or else the message that goes out is the next one that its subscriber will see. -/
def HeedsCall (w : World) (c : State ι) (i : ι) (called : Call) : Prop :=
  ((c.member i).synced = true → (called.Adds ∧ Holds (c.member i).node called.jobId ∨
      called.Puts (c.env w) ↔ Runnable c.store called.jobId)) ∧
    ∀ j, j ≠ i → (c.member j).synced = true →
      (Holds (c.member j).node called.jobId ↔ Runnable c.store called.jobId) ∨
        (c.member i).connected = true ∧ called.Tells (c.env w) ∧ (c.member j).waiting = true ∧
          (c.member j).queue = [] ∧ ∃ b, heard (called.payload w) = some (b, called.jobId) ∧
            (b = true ↔ Runnable c.store called.jobId)

/-- A message that is still true when it is handled. -/
def HeedsMessage (env : Env) (s : Node) : Option (Bool × Bytes) → Prop
  | none => True
  | some (true, id) => ∀ j, getJobInfo env.store id = some j →
      (Holds s id ∨ Sent env j ↔ Runnable env.store id)
  | some (false, id) => ¬ Runnable env.store id

def Heeds (w : World) (c : State ι) : Event ι → Prop
  | .request i r => ∀ store called, handle w c.now c.store r = some (store, called) →
      HeedsCall w { c with store := store } i called
  | .deliver i => ∀ payload queue, (c.member i).queue = payload :: queue →
      (c.member i).waiting = true → (c.member i).synced = true →
        HeedsMessage (c.env w) (c.member i).node (heard payload)
  | .sync i _ => (c.member i).connected = true → (c.member i).synced = false →
      ∀ key, (Holds (c.member i).node key ∨ (c.member i).keepAlive = false ∧
          (∃ j ∈ getRunnableJobs c.store, j.jobId = key ∧ Sent (c.env w) j) ↔
          Runnable c.store key) ∨ (c.member i).Pending c.store key
  | .pass _ | .lose _ | .restore _ => True

def Right (c : State ι) : Prop := ∀ i, Agrees c.store (c.member i)

theorem Right.set {i : ι} {m : Member} (h : Right c) (hm : Agrees c.store m) : Right (c.set i m) := by
  intro j
  by_cases hj : j = i
  · subst hj
    simpa [State.set] using hm
  · simpa [State.set, hj] using h j

/-- What is next says something of one job only. -/
theorem Member.Pending.heard_eq {m : Member} {payload : Bytes} {queue : List Bytes}
    (h : m.Pending store key) (hq : m.queue = payload :: queue) :
    ∃ b, heard payload = some (b, key) := by
  obtain ⟨-, payload', queue', b, hq', hb, -⟩ := h
  rw [hq, List.cons.injEq] at hq'
  exact ⟨b, hq'.1 ▸ hb⟩

theorem Agrees.deliver {m : Member} {payload : Bytes} {queue : List Bytes}
    (hnil : ∀ t, env.cron [] t = none) (h : Agrees env.store m) (hq : m.queue = payload :: queue)
    (hm : m.waiting = true → m.synced = true → HeedsMessage env m.node (heard payload)) :
    Agrees env.store (deliver env { m with queue := queue } payload) := by
  rw [Cluster.deliver]
  split
  · rename_i hwait
    split
    · exact ⟨h.connected, h.keepAlive, by simp⟩
    · rename_i s' hs
      have hheld := handleSubEvent_holds hnil hs
      refine ⟨h.connected, h.keepAlive, fun halive hsync key => .inl ?_⟩
      have hheeds := hm hwait hsync
      have hold := h.held halive hsync key
      cases hp : heard payload with
      | none =>
          rw [hp] at hheld
          subst hheld
          rcases hold with hold | hpend
          · exact hold
          · obtain ⟨b, hb⟩ := hpend.heard_eq hq
            simp [hp] at hb
      | some r =>
          obtain ⟨b', id⟩ := r
          rw [hp] at hheld hheeds
          have hother (hk : key ≠ id) : Holds m.node key ↔ Runnable env.store key := by
            rcases hold with hold | hpend
            · exact hold
            · obtain ⟨b, hb⟩ := hpend.heard_eq hq
              rw [hp, Option.some.injEq, Prod.mk.injEq] at hb
              exact absurd hb.2.symm hk
          cases b' with
          | true =>
              obtain ⟨j, hj, hid, hrest⟩ := hheld
              by_cases hk : key = id
              · rw [hk, hid]
                exact hheeds j hj
              · rw [hrest key hk]
                exact hother hk
          | false =>
              obtain ⟨hid, hrest⟩ := hheld
              by_cases hk : key = id
              · rw [hk]
                exact ⟨fun hh => absurd hh hid, fun hr => absurd hr hheeds⟩
              · rw [hrest key hk]
                exact hother hk
  · rename_i hwait
    refine ⟨h.connected, h.keepAlive, fun halive hsync key => ?_⟩
    rcases h.held halive hsync key with hold | hpend
    · exact .inl hold
    · exact absurd hpend.1 hwait

theorem Agrees.sync {m : Member} {ids : List Bytes} (h : Agrees env.store m)
    (hm : m.connected = true → m.synced = false → ∀ key,
      (Holds m.node key ∨ m.keepAlive = false ∧
          (∃ j ∈ getRunnableJobs env.store, j.jobId = key ∧ Sent env j) ↔
        Runnable env.store key) ∨ m.Pending env.store key) :
    Agrees env.store (syncNodeList env m ids) := by
  rw [syncNodeList]
  split
  · rename_i hconn
    split
    · rename_i hkeep
      refine ⟨fun _ => hconn, fun _ => hkeep, fun halive _ key => ?_⟩
      by_cases hsync : m.synced = true
      · exact h.held halive hsync key
      · rcases hm hconn (by simpa using hsync) key with hold | hpend
        · left
          simpa [Holds, hkeep] using hold
        · exact .inr hpend
    · rename_i hkeep
      have hsync : m.synced = false := by
        by_contra hs
        exact hkeep (h.keepAlive (by simpa using hs))
      split
      · exact ⟨h.connected, h.keepAlive, by simp⟩
      · rename_i s' hs
        refine ⟨fun _ => hconn, fun _ => rfl, fun halive _ key => ?_⟩
        rcases hm hconn hsync key with hold | hpend
        · left
          have hinit : Holds s' key ↔
              Holds m.node key ∨ ∃ j ∈ getRunnableJobs env.store, j.jobId = key ∧ Sent env j :=
            initJobs_holds hs
          rw [← hold, ← (by simpa using hkeep : m.keepAlive = false)]
          simpa [Holds] using hinit
        · exact .inr hpend
  · rename_i hconn
    have hsync : ¬ m.synced = true := fun hs => hconn (h.connected hs)
    exact ⟨fun hs => absurd hs hsync, fun hs => absurd hs hsync, fun _ hs => absurd hs hsync⟩

theorem call_none {called : Call} (h : call w env s called = none) : ¬ called.Tells env := by
  cases called with
  | handleJobStateChange key state =>
      rw [call, handleJobStateChange] at h
      split at h
      · rename_i hstate
        split at h
        · simp at h
        · rename_i j hj
          have hnone : MultiNode.addJob env s j = none := by simpa [handleAddJob] using h
          rw [MultiNode.addJob] at hnone
          intro ht
          obtain ⟨j', hj', hadd⟩ := ht hstate
          obtain rfl := Option.some.inj (hj.symm.trans hj')
          split at hnone <;> simp_all
      · simp at h
  | handleJobTimeChange key => simp [call] at h
  | remove key => simp [call] at h

theorem Member.Pending.append {m : Member} {store' : Store} (h : m.Pending store key)
    (hr : Runnable store' key ↔ Runnable store key) (s : Node) (payloads : List Bytes) :
    Member.Pending { m with node := s, queue := m.queue ++ payloads } store' key := by
  obtain ⟨hwait, payload, queue, b, hq, hb, hbr⟩ := h
  exact ⟨hwait, payload, queue ++ payloads, b, by simp [hq], hb, hbr.trans hr.symm⟩

omit [DecidableEq ι] in
theorem publish_apply (member : ι → Member) (payloads : List Bytes) (i : ι) :
    publish member payloads i = { member i with
      queue := (member i).queue ++ if (member i).connected then payloads else [] } := by
  rw [publish]
  split <;> simp

theorem Right.serve {i : ι} {called : Call} {store : Store} (h : Right c)
    (hstore : ∀ k, k ≠ called.jobId → (Runnable store k ↔ Runnable c.store k))
    (hm : HeedsCall w { c with store := store } i called) :
    Right (serve w { c with store := store } i called) := by
  have hother (j : ι) (key : Bytes) (halive : (c.member j).alive = true)
      (hsync : (c.member j).synced = true) (hk : key ≠ called.jobId) :
      (Holds (c.member j).node key ↔ Runnable store key) ∨ (c.member j).Pending c.store key := by
    rw [hstore key hk]
    exact (h j).held halive hsync key
  rw [Cluster.serve]
  split
  · rename_i hnone
    have htells := call_none hnone
    intro j
    by_cases hj : j = i
    · subst hj
      refine ⟨?_, ?_, ?_⟩
      · simpa [State.set] using (h j).connected
      · simpa [State.set] using (h j).keepAlive
      · simp [State.set]
    · have hjoin : (State.set { c with store := store } i
          { c.member i with alive := false }).member j = c.member j := by simp [State.set, hj]
      refine hjoin ▸ ⟨(h j).connected, (h j).keepAlive, fun halive hsync key => ?_⟩
      by_cases hk : key = called.jobId
      · rcases hm.2 j hj hsync with hold | ⟨-, ht, -⟩
        · exact .inl (hk ▸ hold)
        · exact absurd ht htells
      · rcases hother j key halive hsync hk with hold | hpend
        · exact .inl hold
        · right
          have happend := hpend.append (hstore key hk) (c.member j).node []
          rwa [List.append_nil] at happend
  · rename_i s payloads hcall
    obtain ⟨hid, hrest⟩ := call_holds hcall
    intro j
    simp only [State.set, publish_apply]
    by_cases hj : j = i
    · subst hj
      simp only [Function.update_self]
      refine ⟨(h j).connected, (h j).keepAlive, fun halive hsync key => ?_⟩
      by_cases hk : key = called.jobId
      · subst hk
        exact .inl (hid.trans (hm.1 hsync))
      · rcases hother j key halive hsync hk with hold | hpend
        · exact .inl ((hrest key hk).trans hold)
        · exact .inr (hpend.append (hstore key hk) _ _)
    · simp only [Function.update_of_ne hj]
      refine ⟨(h j).connected, (h j).keepAlive, fun halive hsync key => ?_⟩
      by_cases hk : key = called.jobId
      · subst hk
        rcases hm.2 j hj hsync with hold | ⟨hconn, ht, hwait, hq, b, hb, hbr⟩
        · exact .inl hold
        · have hp := call_tells hcall ht
          refine .inr ⟨hwait, called.payload w, [], b, ?_, hb, hbr⟩
          have hconn' : (c.member i).connected = true := hconn
          have hq' : (c.member j).queue = [] := hq
          simp [hq', (h j).connected hsync, hconn', hp]
      · rcases hother j key halive hsync hk with hold | hpend
        · exact .inl hold
        · exact .inr (hpend.append (hstore key hk) _ _)

theorem Right.step {e : Event ι} (h : Right c) (hm : Heeds w c e) (hs : step w c e = some d) :
    Right d := by
  cases e with
  | pass n =>
      obtain rfl := Option.some.inj hs
      exact h
  | request i r =>
      simp only [Cluster.step] at hs
      split at hs
      · split at hs
        · obtain rfl := Option.some.inj hs
          exact h
        · rename_i store called hr
          obtain rfl := Option.some.inj hs
          exact h.serve (fun k hk => handle_runnable hr hk) (hm store called hr)
      · simp at hs
  | deliver i =>
      simp only [Cluster.step] at hs
      split at hs
      · simp at hs
      · rename_i payload queue hq
        split at hs
        · obtain rfl := Option.some.inj hs
          exact h.set (Agrees.deliver w.lib.cron_nil (h i) hq (hm payload queue hq))
        · simp at hs
  | lose i =>
      obtain rfl := Option.some.inj hs
      exact h.set ⟨by simp, by simp, by simp⟩
  | restore i =>
      obtain rfl := Option.some.inj hs
      exact h.set ⟨fun _ => rfl, (h i).keepAlive, (h i).held⟩
  | sync i ids =>
      simp only [Cluster.step] at hs
      split at hs
      · obtain rfl := Option.some.inj hs
        have hsync : Agrees (c.env w).store (syncNodeList (c.env w) (c.member i) ids) :=
          (h i).sync hm
        exact h.set hsync
      · simp at hs

omit [DecidableEq ι] in
theorem Right.start {now : Int} {nodeId : ι → Bytes} : Right (.start now store nodeId) :=
  fun i => ⟨by simp [State.start], by simp [State.start], by simp [State.start]⟩

theorem Right.reaches {now : Int} {nodeId : ι → Bytes}
    (h : Reaches w (Heeds w) (.start now store nodeId) c) : Right c := by
  induction h with
  | refl => exact .start
  | tail _ hstep ih =>
      obtain ⟨e, hm, hs⟩ := hstep
      exact ih.step hm hs

def driver : World where
  lib := Standalone.everyMinute
  findOneAndUpdate _ _ := none
  findOneAndUpdate_jobId := by simp
  sprintf s := s

def run (w : World) (c : State ι) : List (Event ι) → Option (State ι)
  | [] => some c
  | e :: es =>
      match step w c e with
      | none => none
      | some d => run w d es

theorem run_reaches {es : List (Event ι)} (h : run w c es = some d) :
    Reaches w (fun _ _ => True) c d := by
  induction es generalizing c with
  | nil =>
      obtain rfl := Option.some.inj h
      exact .refl
  | cons e es ih =>
      rw [run] at h
      split at h
      · simp at h
      · rename_i t ht
        exact .head ⟨e, trivial, ht⟩ (ih h)

def twoJobs : Store :=
  [⟨bytes "a", bytes "* * * * *", none, timingExecute, runnable⟩,
    ⟨bytes "b", bytes "* * * * *", none, timingExecute, runnable⟩]

def removeTwo : List (Event Bool) :=
  [.sync false [], .sync true [],
    .request false (.remove (bytes "a")), .deliver false, .deliver true,
    .request false (.remove (bytes "b")), .deliver false, .deliver true]

end Traitor.Cluster
