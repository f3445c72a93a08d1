import Traitor.LocalDbReads

namespace Traitor.LocalDb

open Lib.Strconv Lib.TimeLayout Protocol

inductive Op
  | addJob (lib : Library) (job : JobEntity)
  | updateJob (lib : Library) (jobId : Bytes) (mp : List (Bytes × Value))
  | editJobScript (jobId script : Bytes)
  | removeJob (jobId : Bytes)

namespace Op

def id : Op → Bytes
  | .addJob lib job => job.id lib
  | .updateJob _ jobId _ => jobId
  | .editJobScript jobId _ => jobId
  | .removeJob jobId => jobId

def run (db : Db) : Op → Db
  | .addJob lib job => (LocalDb.addJob lib db job).2
  | .updateJob lib jobId mp => (LocalDb.updateJob lib db jobId mp).2
  | .editJobScript jobId script => (LocalDb.editJobScript db jobId script).2
  | .removeJob jobId => (LocalDb.removeJob db jobId).2

end Op

def runs (db : Db) (ops : List Op) : Db := ops.foldl Op.run db

def Puts (db : Db) (key : Bytes) (db' : Db) : Prop :=
  db' = db ∨ ∃ fields hash, db.hashAt key = some fields ∧
    db' = Function.update db key (some (.hash hash))

section

variable {lib : Library} {db : Db} {job : JobEntity} {key jobId : Bytes}

theorem hmset_puts (args : List Bytes) : Puts db key (db.hmset (key :: args)).2 := by
  rw [Db.hmset, Puts, Db.hashAt]
  split
  · exact .inl rfl
  · split
    · exact .inl rfl
    · rcases db key with _ | item
      · exact .inr ⟨_, _, rfl, rfl⟩
      · cases item with
        | hash fields => exact .inr ⟨_, _, rfl, rfl⟩
        | set _ => exact .inl rfl
        | other => exact .inl rfl

theorem hset_puts (field value : Bytes) : Puts db key (db.hset key field value).2 := by
  rw [Db.hset, Puts, Db.hashAt]
  rcases db key with _ | item
  · exact .inr ⟨_, _, rfl, rfl⟩
  · cases item with
    | hash fields => exact .inr ⟨_, _, rfl, rfl⟩
    | set _ => exact .inl rfl
    | other => exact .inl rfl

theorem updateJob_puts (mp : List (Bytes × Value)) : Puts db jobId (updateJob lib db jobId mp).2 := by
  rw [updateJob]
  split
  · exact .inl rfl
  · dsimp only
    split
    · exact hmset_puts _
    · exact hmset_puts _

theorem editJobScript_puts (script : Bytes) : Puts db jobId (editJobScript db jobId script).2 := by
  have hsnd : (editJobScript db jobId script).2 = (db.hset jobId Field.script script).2 := by
    rw [editJobScript]
    split
    · next heq => rw [heq]
    · next heq => rw [heq]
  rw [hsnd]
  exact hset_puts _ _

/-- A job is refused, or it is in the set. -/
theorem addJob_puts (lib : Library) (db : Db) (job : JobEntity) :
    Puts db (job.id lib) (addJob lib db job).2 ∨ ∃ fields,
    job.id lib ≠ jobKeysSet ∧ db.hashAt (job.id lib) = some fields ∧
      (addJob lib db job).2 = withJob lib job fields db := by
  cases hhash : db.hashAt (job.id lib) with
  | none => exact .inl (.inl (addJob_fails hhash))
  | some fields =>
      by_cases hcollides : Collides lib db job
      · rw [addJob_collides hhash hcollides]
        exact .inl (.inr ⟨fields, _, hhash, rfl⟩)
      · rw [addJob_added hhash hcollides]
        exact .inr ⟨fields, fun hid => hcollides (.inl hid), rfl, rfl⟩

/-- The set after a removal, and the store after it. -/
theorem removeJob_cases (db : Db) (jobId : Bytes) : (removeJob db jobId).2 = db ∨ ∃ members item,
    db jobKeysSet = some (.set members) ∧
      ((removeJob db jobId).2 = Function.update db jobKeysSet item ∨ jobId ∈ members ∧
        (removeJob db jobId).2 = Function.update (Function.update db jobKeysSet item) jobId none) ∧
      item = if members.erase jobId = ∅ then none else some (.set (members.erase jobId)) := by
  rw [removeJob, Db.srem]
  cases hset : db jobKeysSet with
  | none => exact .inl rfl
  | some item =>
      cases item with
      | hash _ => exact .inl rfl
      | other => exact .inl rfl
      | set members =>
          refine .inr ⟨members, _, rfl, ?_, rfl⟩
          by_cases hmem : jobId ∈ members
          · refine .inr ⟨hmem, ?_⟩
            simp only [hmem, if_true]
            split
            · next heq => rw [← congrArg Prod.snd heq, Db.del]
            · next heq => rw [← congrArg Prod.snd heq, Db.del]
          · refine .inl ?_
            simp only [hmem, if_false]

end

/-- What one write does: it puts a hash, adds a job or removes one. -/
theorem Op.run_cases (db : Db) (op : Op) : Puts db op.id (op.run db) ∨
    (∃ lib job fields, op.id = job.id lib ∧ job.id lib ≠ jobKeysSet ∧
      op.run db = withJob lib job fields db) ∨
    ∃ members item, db jobKeysSet = some (.set members) ∧
      (op.run db = Function.update db jobKeysSet item ∨ op.id ∈ members ∧
        op.run db = Function.update (Function.update db jobKeysSet item) op.id none) ∧
      item = if members.erase op.id = ∅ then none else some (.set (members.erase op.id)) := by
  cases op with
  | addJob lib job =>
      rcases addJob_puts lib db job with hputs | ⟨fields, hne, -, hrun⟩
      · exact .inl hputs
      · exact .inr (.inl ⟨lib, job, fields, rfl, hne, hrun⟩)
  | updateJob lib jobId mp => exact .inl (updateJob_puts mp)
  | editJobScript jobId script => exact .inl (editJobScript_puts script)
  | removeJob jobId =>
      rcases removeJob_cases db jobId with hsame | hremoved
      · exact .inl (.inl hsame)
      · exact .inr (.inr hremoved)

/-- No key but the one of the set has another value than a hash, and it is no job. -/
structure Kept (db : Db) : Prop where
  hashes : ∀ key, key ≠ jobKeysSet → db key = none ∨ ∃ fields, db key = some (.hash fields)
  unlisted : jobKeysSet ∉ jobs db

section

variable {db db' : Db} {key id : Bytes} {op : Op}

theorem Puts.of_ne (h : Puts db key db') {k : Bytes} (hne : k ≠ key) : db' k = db k := by
  rcases h with rfl | ⟨fields, hash, -, rfl⟩
  · rfl
  · exact Function.update_of_ne hne _ _

theorem Puts.kept (h : Puts db key db') (hkept : Kept db) : Kept db' := by
  rcases h with rfl | ⟨fields, hash, -, rfl⟩
  · exact hkept
  · refine ⟨fun k hk => ?_, ?_⟩
    · by_cases heq : k = key
      · rw [heq, Function.update_self]
        exact .inr ⟨hash, rfl⟩
      · rw [Function.update_of_ne heq]
        exact hkept.hashes k hk
    · by_cases heq : jobKeysSet = key
      · rw [jobs, heq, Function.update_self]
        exact Finset.notMem_empty _
      · have hunlisted := hkept.unlisted
        rw [jobs] at hunlisted ⊢
        rwa [Function.update_of_ne heq]

theorem jobs_eq {members : Finset Bytes} (h : db jobKeysSet = some (.set members)) :
    jobs db = members := by
  rw [jobs, h]

theorem Kept.run (h : Kept db) (op : Op) : Kept (op.run db) := by
  rcases op.run_cases db with hputs | ⟨lib, job, fields, -, hne, hrun⟩ |
    ⟨members, item, hset, hrun, hitem⟩
  · exact hputs.kept h
  · rw [hrun]
    refine ⟨fun k hk => ?_, ?_⟩
    · by_cases heq : k = job.id lib
      · rw [heq, withJob_id hne.symm]
        exact .inr ⟨_, rfl⟩
      · rw [withJob, Function.update_of_ne hk, Function.update_of_ne heq]
        exact h.hashes k hk
    · rw [jobs_withJob, Finset.mem_insert, not_or]
      exact ⟨hne.symm, h.unlisted⟩
  · have hunlisted : jobKeysSet ∉ members := jobs_eq hset ▸ h.unlisted
    have hjobs : Kept (Function.update db jobKeysSet item) := by
      refine ⟨fun k hk => ?_, ?_⟩
      · rw [Function.update_of_ne hk]
        exact h.hashes k hk
      · rw [jobs, Function.update_self, hitem]
        split
        · next hsome =>
            split at hsome
            · cases hsome
            · cases hsome
              exact fun hmem => hunlisted (Finset.mem_of_mem_erase hmem)
        · exact Finset.notMem_empty _
    rcases hrun with hrun | ⟨hmem, hrun⟩
    · exact hrun ▸ hjobs
    · have hne : jobKeysSet ≠ op.id := fun heq => hunlisted (heq ▸ hmem)
      rw [hrun]
      refine ⟨fun k hk => ?_, ?_⟩
      · by_cases heq : k = op.id
        · exact .inl (heq ▸ Function.update_self _ _ _)
        · rw [Function.update_of_ne heq]
          exact hjobs.hashes k hk
      · have hunset := hjobs.unlisted
        rw [jobs] at hunset ⊢
        rwa [Function.update_of_ne hne]

def Sets (db : Db) : Prop :=
  db jobKeysSet = none ∨ (∃ fields, db jobKeysSet = some (.hash fields)) ∨
    ∃ members, db jobKeysSet = some (.set members)

theorem sets_empty : Sets fun _ => none := .inl rfl

theorem Sets.run (h : Sets db) (hkept : Kept db) (op : Op) : Sets (op.run db) := by
  rcases op.run_cases db with hputs | ⟨lib, job, fields, -, -, hrun⟩ | ⟨members, item, hset, hrun, hitem⟩
  · rcases hputs with hsame | ⟨fields, hash, -, hrun⟩
    · rwa [hsame]
    · rw [Sets, hrun]
      by_cases hkey : jobKeysSet = op.id
      · rw [← hkey, Function.update_self]
        exact .inr (.inl ⟨_, rfl⟩)
      · rwa [Function.update_of_ne hkey]
  · rw [hrun]
    exact .inr (.inr ⟨_, withJob_jobKeysSet⟩)
  · have hjobs : Sets (Function.update db jobKeysSet item) := by
      rw [Sets, Function.update_self, hitem]
      split
      · exact .inl rfl
      · exact .inr (.inr ⟨_, rfl⟩)
    rcases hrun with hrun | ⟨hmem, hrun⟩
    · exact hrun ▸ hjobs
    · have hkey : jobKeysSet ≠ op.id := fun heq => hkept.unlisted (jobs_eq hset ▸ heq ▸ hmem)
      rw [Sets, hrun, Function.update_of_ne hkey]
      exact hjobs

theorem Sets.runs (h : Sets db) (hkept : Kept db) (ops : List Op) : Sets (LocalDb.runs db ops) := by
  induction ops generalizing db with
  | nil => exact h
  | cons op ops ih => exact ih (h.run hkept op) (hkept.run op)

/-- Writes to other jobs leave a job as it is. -/
theorem Op.run_of_ne (hne : op.id ≠ id) (hkey : id ≠ jobKeysSet) : op.run db id = db id := by
  rcases op.run_cases db with hputs | ⟨lib, job, fields, hid, -, hrun⟩ | ⟨members, item, -, hrun, -⟩
  · exact hputs.of_ne hne.symm
  · rw [hrun, withJob, Function.update_of_ne hkey, Function.update_of_ne (hid ▸ hne.symm)]
  · rcases hrun with hrun | ⟨-, hrun⟩
    · rw [hrun, Function.update_of_ne hkey]
    · rw [hrun, Function.update_of_ne hne.symm, Function.update_of_ne hkey]

theorem kept_empty : Kept fun _ => none := ⟨fun _ _ => .inl rfl, Finset.notMem_empty _⟩

theorem Kept.runs (h : Kept db) (ops : List Op) : Kept (runs db ops) := by
  induction ops generalizing db with
  | nil => exact h
  | cons op ops ih => exact ih (h.run op)

theorem runs_of_ne {ops : List Op} (hne : ∀ op ∈ ops, op.id ≠ id) (hkey : id ≠ jobKeysSet) :
    LocalDb.runs db ops id = db id := by
  induction ops generalizing db with
  | nil => rfl
  | cons op ops ih =>
      rw [List.forall_mem_cons] at hne
      exact (ih hne.2).trans (op.run_of_ne hne.1 hkey)

end

/-- The job is answered as it was stored. Times are compared to the second. -/
def ReadsBack (db : Db) (id : Bytes) (job : JobEntity) : Prop :=
  (∃ entity, getJobInfo db id = .ok entity ∧ entity.name = job.name ∧ entity.cron = job.cron ∧
    entity.description = job.description ∧ entity.execType = job.execType ∧
    entity.state = job.state ∧ entity.execAt.map Time.unix = job.execAt.map Time.unix) ∧
    (getJobScript db id).script = job.script

section

variable {lib : Library} {db : Db} {job : JobEntity} {id : Bytes}

theorem readTime_execAt : readTime ((merged lib (job.named lib) (fun _ => none) Field.execAt).getD []) =
    job.execAt.map fun _ => .zero := by
  have hfield : (Field.execAt, job.execAt.map fun t => Value.timeStampPtr (some t)) ∈
      structsFields (job.named lib) := by simp [structsFields, JobEntity.named]
  cases hexec : job.execAt with
  | none =>
      rw [hexec] at hfield
      rw [merged_of_not_writes (not_writes hfield)]
      rfl
  | some t =>
      rw [hexec] at hfield
      rw [merged_of_writes ⟨_, hfield, rfl⟩]
      exact readTime_toText t

theorem getJobScript_hash {hash : Hash} (h : db id = some (.hash hash)) :
    (getJobScript db id).script = (hash Field.script).getD [] := by
  rw [getJobScript, Db.hget, h]
  dsimp only
  cases hash Field.script with
  | none => rfl
  | some value => rfl

theorem readsBack_iff_execAt {l : Library}
    (h : db id = some (.hash (merged l (job.named l) fun _ => none))) : ReadsBack db id job ↔
      ∀ t, job.execAt = some t → t.unix = Time.zero.unix := by
  have htext {field s : Bytes} (hfield : (field, omitEmpty s) ∈ structsFields (job.named l)) :
      (merged l (job.named l) (fun _ => none) field).getD [] = s := merged_omitEmpty hfield
  have hname : (merged l (job.named l) (fun _ => none) Field.name).getD [] = job.name :=
    htext (by simp [structsFields, JobEntity.named])
  have hcron : (merged l (job.named l) (fun _ => none) Field.cron).getD [] = job.cron :=
    htext (by simp [structsFields, JobEntity.named])
  have hdescription :
      (merged l (job.named l) (fun _ => none) Field.description).getD [] = job.description :=
    htext (by simp [structsFields, JobEntity.named])
  have hscript : (merged l (job.named l) (fun _ => none) Field.script).getD [] = job.script :=
    htext (by simp [structsFields, JobEntity.named])
  have hexecType : readUint8 ((merged l (job.named l) (fun _ => none) Field.execType).getD []) =
      job.execType := merged_uint8 (by simp [structsFields, JobEntity.named])
  have hexecAt : (job.execAt.map fun _ => Time.zero).map Time.unix = job.execAt.map Time.unix ↔
      ∀ t, job.execAt = some t → t.unix = Time.zero.unix := by
    cases job.execAt with
    | none => simp
    | some t => simp [eq_comm]
  rw [ReadsBack, getJobInfo_hash h, getJobScript_hash h, hname, hcron, hdescription, hscript,
    hexecType, merged_state, readTime_execAt]
  simp only [Except.ok.injEq, exists_eq_left', hexecAt, true_and, and_true]

theorem addJob_ok (hfresh : db (job.id lib) = none) (h : (addJob lib db job).1.2 = none) :
    job.id lib ≠ jobKeysSet ∧ (addJob lib db job).2 = withJob lib job (fun _ => none) db := by
  have hhash : db.hashAt (job.id lib) = some fun _ => none := hashAt_eq_some.mpr (.inl ⟨hfresh, rfl⟩)
  by_cases hcollides : Collides lib db job
  · rw [addJob_collides hhash hcollides] at h
    cases h
  · exact ⟨fun hid => hcollides (.inl hid), congrArg Prod.snd (addJob_added hhash hcollides)⟩

/-- What is no job has an error exactly if it is the key of the set, and the set is there. -/
theorem getJobInfo_error (h : Kept db) (hset : Sets db) :
    (∃ e, getJobInfo db id = .error e) ↔ id = jobKeysSet ∧ ∃ members, db jobKeysSet = some (.set members) := by
  constructor
  · rintro ⟨e, he⟩
    by_cases hid : id = jobKeysSet
    · subst hid
      refine ⟨rfl, ?_⟩
      rcases hset with hnone | ⟨fields, hfields⟩ | hmembers
      · rw [getJobInfo, Db.hmget, hnone] at he
        cases he
      · rw [getJobInfo_hash hfields] at he
        cases he
      · exact hmembers
    · rcases h.hashes id hid with hnone | ⟨fields, hfields⟩
      · rw [getJobInfo, Db.hmget, hnone] at he
        cases he
      · rw [getJobInfo_hash hfields] at he
        cases he
  · rintro ⟨rfl, members, hset⟩
    exact ⟨_, by rw [getJobInfo, Db.hmget, hset]; rfl⟩

theorem readsBack_iff {before later : List Op} (hfresh : runs (fun _ => none) before (job.id lib) = none)
    (hadd : (addJob lib (runs (fun _ => none) before) job).1.2 = none)
    (hlater : ∀ op ∈ later, op.id ≠ job.id lib) :
    ReadsBack (runs (addJob lib (runs (fun _ => none) before) job).2 later) (job.id lib) job ↔
      ∀ t, job.execAt = some t → t.unix = Time.zero.unix := by
  obtain ⟨hid, hdb⟩ := addJob_ok hfresh hadd
  rw [hdb]
  apply readsBack_iff_execAt (l := lib)
  rw [runs_of_ne hlater hid, withJob_id hid.symm]

end

/-- After any writes, a new job reads back, until it is written again, if and only if it has no other time
to run at than the zero time, and of what is no job only the key of the set has an error, if the set is there. -/
theorem addJob_readsBack_iff (ops : List Op) :
    (∀ (lib : Library) (job : JobEntity) (later : List Op), runs (fun _ => none) ops (job.id lib) = none →
      (addJob lib (runs (fun _ => none) ops) job).1.2 = none → (∀ op ∈ later, op.id ≠ job.id lib) →
      (ReadsBack (runs (addJob lib (runs (fun _ => none) ops) job).2 later) (job.id lib) job ↔
        ∀ t, job.execAt = some t → t.unix = Time.zero.unix)) ∧
    ∀ id, id ∉ jobs (runs (fun _ => none) ops) →
      ((∃ e, getJobInfo (runs (fun _ => none) ops) id = .error e) ↔
        id = jobKeysSet ∧ ∃ members, runs (fun _ => none) ops jobKeysSet = some (.set members)) :=
  ⟨fun _ _ _ hfresh hadd hlater => readsBack_iff hfresh hadd hlater,
    fun _ _ => getJobInfo_error (kept_empty.runs ops) (sets_empty.runs kept_empty ops)⟩

theorem addJob_plainJob : (addJob .plain (fun _ => none) (plainJob (bytes "first"))).1.2 = none :=
  congrArg (fun r => r.1.2) (addJob_first (plainJob_id _))

/-- A job is added and read, and read again when it is removed. -/
theorem readsBack_plainJob :
    ReadsBack (runs plainDb [.removeJob (bytes "b")]) (bytes "a") (plainJob (bytes "first")) ∧
      ¬ ∃ e, getJobInfo (runs (fun _ => none) [.addJob .plain (plainJob (bytes "first")), .removeJob (bytes "a")])
        (bytes "a") = .error e := by
  refine ⟨((addJob_readsBack_iff []).1 .plain (plainJob (bytes "first")) [.removeJob (bytes "b")] rfl
    addJob_plainJob (by decide)).mpr nofun, fun herror => ?_⟩
  have hremoved := ((addJob_readsBack_iff [.addJob .plain (plainJob (bytes "first")), .removeJob (bytes "a")]).2
    (bytes "a") (by decide)).mp herror
  exact absurd hremoved.1 (by decide)

def plainTime : Time where
  unix := 0
  wall := { Time.zero.wall with year := 1970 }
  suffix := bytes " +0000 UTC"

def timedJob : JobEntity := { plainJob (bytes "first") with execAt := some plainTime }

/-- A job with a time to run at reads back with another, and a job that is not there has no error. -/
theorem not_readsBack :
    ¬ ReadsBack (addJob .plain (fun _ => none) timedJob).2 (bytes "a") timedJob ∧
      ∃ entity, getJobInfo (fun _ => none) (bytes "a") = .ok entity := by
  have hkey : jobKeysSet ≠ JobEntity.id .plain timedJob := show jobKeysSet ≠ bytes "a" by decide
  refine ⟨fun h => ?_, _, rfl⟩
  rw [addJob_first hkey] at h
  exact absurd ((readsBack_iff_execAt (withJob_id hkey)).mp h plainTime rfl) (by decide)

end Traitor.LocalDb
