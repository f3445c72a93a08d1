import Traitor.LocalDbWrites

namespace Traitor.LocalDb

open Lib.Strconv Lib.TimeLayout Protocol

/-- The set of the jobs is no other value, and every job has its hash. -/
structure Stored (db : Db) : Prop where
  set : db jobKeysSet = none ∨ ∃ members, db jobKeysSet = some (.set members)
  hash : ∀ id ∈ jobs db, ∃ fields, db id = some (.hash fields)

def Lists (db : Db) (p : JobEntity → Prop) (l : List JobEntity) : Prop :=
  ∃ ids : List Bytes, ids.Nodup ∧
    (∀ id, id ∈ ids ↔ id ∈ jobs db ∧ ∃ entity, getJobInfo db id = .ok entity ∧ p entity) ∧
    ids.map (getJobInfo db) = l.map .ok

def ListsExactly (lib : Library) (db : Db) : Prop :=
  (∃ l, getJobInfos lib db = some l ∧ Lists db (fun _ => True) l) ∧
    ∃ l, getRunnableJobs lib db = some l ∧ Lists db (fun entity => entity.state = runnable) l

def entityAt (db : Db) (id : Bytes) : JobEntity :=
  match getJobInfo db id with
  | .ok entity => entity
  | .error _ => .zero

variable {lib : Library} {db : Db} {job : JobEntity} {id : Bytes} {fields : Hash}

theorem merged_state : readUint8 ((merged lib (job.named lib) fields Field.state).getD []) = job.state :=
  merged_uint8 (by simp [structsFields, JobEntity.named])

theorem Stored.getJobInfo (h : Stored db) (hid : id ∈ jobs db) :
    getJobInfo db id = .ok (entityAt db id) := by
  obtain ⟨fields, hfields⟩ := h.hash id hid
  rw [entityAt, getJobInfo_hash hfields]

theorem Stored.smembers (h : Stored db) :
    db.smembers lib jobKeysSet = readArray ((lib.members (jobs db)).map some) := by
  rw [Db.smembers, jobs]
  rcases h.set with hnone | ⟨members, hset⟩
  · have hempty : lib.members ∅ = [] :=
      List.eq_nil_iff_forall_not_mem.mpr fun id hid => by simpa using (lib.mem_members ∅ id).mp hid
    rw [hnone]
    simp [hempty, readArray]
  · rw [hset]

theorem Stored.getJobInfos (h : Stored db) :
    getJobInfos lib db = some ((lib.members (jobs db)).map (entityAt db)) := by
  rw [LocalDb.getJobInfos, h.smembers]
  cases lib.members (jobs db) with
  | nil => rfl
  | cons id ids =>
      rw [readArray, if_neg (by simp)]
      simp only [List.map_cons, List.map_map]
      rfl

theorem Stored.lists {l : Library} (h : Stored db) (p : JobEntity → Prop) [DecidablePred p] :
    Lists db p (((l.members (jobs db)).map (entityAt db)).filter p) := by
  refine ⟨(l.members (jobs db)).filter fun id => p (entityAt db id),
    (l.members_nodup _).filter _, fun id => ?_, ?_⟩
  · rw [List.mem_filter, l.mem_members, decide_eq_true_iff]
    apply and_congr_right
    intro hid
    simp [h.getJobInfo hid]
  · rw [List.filter_map, List.map_map]
    apply List.map_congr_left
    intro id hid
    exact h.getJobInfo ((l.mem_members _ _).mp (List.mem_of_mem_filter hid))

theorem Lists.zero_not_mem {l : List JobEntity}
    (h : Lists db (fun entity => entity.state = runnable) l) : .zero ∉ l := by
  obtain ⟨ids, -, hmem, hmap⟩ := h
  intro hzero
  have hok : Except.ok JobEntity.zero ∈ ids.map (LocalDb.getJobInfo db) :=
    hmap ▸ List.mem_map_of_mem hzero
  obtain ⟨id, hid, hinfo⟩ := List.mem_map.mp hok
  obtain ⟨-, entity, hentity, hstate⟩ := (hmem id).mp hid
  rw [hinfo] at hentity
  cases hentity
  exact absurd hstate (by decide)

theorem Stored.state_iff (h : Stored db) (hid : id ∈ jobs db) :
    (entityAt db id).state = runnable ↔ ∀ fields, db id = some (.hash fields) →
      readUint8 ((fields Field.state).getD []) = runnable := by
  obtain ⟨fields, hfields⟩ := h.hash id hid
  simp [entityAt, getJobInfo_hash hfields, hfields]

theorem Stored.getRunnableJobs (h : Stored db) : getRunnableJobs lib db = some (
    let all := (lib.members (jobs db)).map (entityAt db)
    let found := all.filter fun j => j.state = runnable
    found ++ List.replicate (all.length - found.length) .zero) := by
  rw [LocalDb.getRunnableJobs, h.getJobInfos]
  rfl

/-- A stopped job leaves a zero entity among the runnable ones. -/
theorem Stored.not_listsExactly (h : Stored db) (hid : id ∈ jobs db)
    (hstate : (entityAt db id).state ≠ runnable) : ¬ ListsExactly lib db := by
  rintro ⟨-, l, hl, hlist⟩
  rw [h.getRunnableJobs, Option.some.injEq] at hl
  refine hlist.zero_not_mem (hl ▸ List.mem_append_right _ ?_)
  refine List.mem_replicate.mpr ⟨Nat.sub_ne_zero_of_lt ?_, rfl⟩
  refine List.length_filter_lt_length_iff_exists.mpr ⟨entityAt db id, ?_, by simpa using hstate⟩
  exact List.mem_map_of_mem ((lib.mem_members _ _).mpr hid)

/-- The listings are exact if and only if no stored job is stopped. -/
theorem listsExactly_iff (lib : Library) (db : Db) (h : Stored db) : ListsExactly lib db ↔
    ∀ id ∈ jobs db, ∀ fields, db id = some (.hash fields) →
      readUint8 ((fields Field.state).getD []) = runnable := by
  constructor
  · intro hlists id hid
    by_contra hne
    rw [← h.state_iff hid] at hne
    exact h.not_listsExactly hid hne hlists
  · intro hrun
    have hall := h.lists (l := lib) fun _ => True
    have hrunnable := h.lists (l := lib) fun entity => entity.state = runnable
    have hfilter : ((lib.members (jobs db)).map (entityAt db)).filter
        (fun j => j.state = runnable) = (lib.members (jobs db)).map (entityAt db) := by
      apply List.filter_eq_self.mpr
      intro j hj
      obtain ⟨id, hid, rfl⟩ := List.mem_map.mp hj
      have hjob := (lib.mem_members _ _).mp hid
      exact decide_eq_true ((h.state_iff hjob).mpr (hrun id hjob))
    refine ⟨⟨_, h.getJobInfos, by simpa using hall⟩, _, h.getRunnableJobs, ?_⟩
    rw [hfilter] at hrunnable
    dsimp only
    rw [hfilter, Nat.sub_self, List.replicate_zero, List.append_nil]
    exact hrunnable

theorem jobs_withJob : jobs (withJob lib job fields db) = insert (job.id lib) (jobs db) := by
  rw [jobs, withJob_jobKeysSet]

theorem stored_first (h : jobKeysSet ≠ job.id lib) :
    Stored (withJob lib job (fun _ => none) fun _ => none) where
  set := .inr ⟨_, withJob_jobKeysSet⟩
  hash id hid := by
    rw [jobs_withJob, Finset.mem_insert] at hid
    rcases hid with rfl | hid
    · exact ⟨_, withJob_id h⟩
    · cases hid

theorem listsExactly_runnable : ListsExactly .plain (addJob .plain (fun _ => none)
    { plainJob (bytes "first") with state := runnable }).2 := by
  have hkey : jobKeysSet ≠ JobEntity.id .plain { plainJob (bytes "first") with state := runnable } :=
    show jobKeysSet ≠ bytes "a" by decide
  rw [addJob_first hkey]
  apply (listsExactly_iff .plain _ (stored_first hkey)).mpr
  intro id hid fields hfields
  rw [jobs_withJob, Finset.mem_insert] at hid
  rcases hid with rfl | hid
  · rw [withJob_id hkey] at hfields
    cases hfields
    exact merged_state
  · cases hid

/-- The one job of the store is stopped. -/
theorem not_listsExactly : ¬ ListsExactly .plain plainDb := by
  have hkey := plainJob_id (bytes "first")
  rw [plainDb_eq]
  have hjob : JobEntity.id .plain (plainJob (bytes "first")) ∈
      jobs (withJob .plain (plainJob (bytes "first")) (fun _ => none) fun _ => none) := by
    rw [jobs_withJob]
    exact Finset.mem_insert_self _ _
  apply (stored_first hkey).not_listsExactly hjob
  rw [Ne, (stored_first hkey).state_iff hjob]
  intro hrun
  have hstate := hrun _ (withJob_id hkey)
  rw [merged_state] at hstate
  exact absurd hstate (by decide)

end Traitor.LocalDb
