import Traitor.LocalDbJobs

namespace Traitor.LocalDb

open Lib.Strconv Protocol

def jobs (db : Db) : Finset Bytes :=
  match db jobKeysSet with
  | some (.set members) => members
  | _ => ∅

section

variable (lib : Library) (db : Db) (job : JobEntity)

/-- The set of the jobs does not take the identifier: its key is the one of the job, or it
has the identifier, or is no set. -/
def Collides : Prop :=
  job.id lib = jobKeysSet ∨ ∃ item, db jobKeysSet = some item ∧
    ∀ members, item = .set members → job.id lib ∈ members

/-- The first command succeeds, and a field is stored that was not there. -/
def Changes : Prop :=
  ∃ fields, db.hashAt (job.id lib) = some fields ∧
    (db (job.id lib) = none ∨
      ∃ field value, (job.named lib).Writes field value ∧ fields field ≠ some value)

def AtomicOnFailure : Prop :=
  (addJob lib db job).1.2 ≠ none → (addJob lib db job).2 = db

end

variable {lib : Library} {db : Db} {job : JobEntity} {jobId : Bytes} {fields : Hash}

theorem hashAt_eq_some : db.hashAt jobId = some fields ↔
    (db jobId = none ∧ fields = fun _ => none) ∨ db jobId = some (.hash fields) := by
  rw [Db.hashAt]
  rcases db jobId with _ | item
  · simp [eq_comm]
  · cases item <;> simp

theorem merged_eq_self : merged lib job fields = fields ↔
    ∀ field value, job.Writes field value → fields field = some value := by
  constructor
  · intro h field value hwrites
    rw [← h]
    exact merged_of_writes hwrites
  · intro h
    funext field
    by_cases hwrites : ∃ value, job.Writes field value
    · obtain ⟨value, hwrites⟩ := hwrites
      rw [merged_of_writes hwrites, h field value hwrites]
    · exact merged_of_not_writes (not_exists.mp hwrites)

/-- Whether the set takes a new member. -/
theorem sadd_one {db : Db} {key member : Bytes} : (∃ db', db.sadd key member = (.int 1, db')) ↔
    db key = none ∨ ∃ members, db key = some (.set members) ∧ member ∉ members := by
  rw [Db.sadd]
  rcases db key with _ | item
  · simp
  · cases item with
    | hash _ => simp [wrongType]
    | set members => by_cases hmem : member ∈ members <;> simp [hmem]
    | other => simp [wrongType]

/-- A set that does not take the member is left as it is. -/
theorem sadd_eq_self {db : Db} {key member : Bytes} (h : ¬ ∃ db', db.sadd key member = (.int 1, db')) :
    (db.sadd key member).2 = db := by
  rw [sadd_one, not_or] at h
  rw [Db.sadd]
  cases hkey : db key with
  | none => exact absurd hkey h.1
  | some item =>
      cases item with
      | hash _ => rfl
      | other => rfl
      | set members =>
          have hmem : member ∈ members := by
            by_contra hmem
            exact h.2 ⟨members, hkey, hmem⟩
          dsimp only
          rw [Finset.insert_eq_of_mem hmem, ← hkey]
          exact Function.update_eq_self _ _

/-- The store after the first command. -/
theorem collides_iff (hash : Hash) : Collides lib db job ↔
    ¬ ∃ db', Db.sadd (Function.update db (job.id lib) (some (.hash hash))) jobKeysSet (job.id lib) =
      (.int 1, db') := by
  rw [sadd_one, Collides]
  by_cases hid : job.id lib = jobKeysSet
  · simp [hid]
  · rw [Function.update_of_ne (Ne.symm hid)]
    cases db jobKeysSet with
    | none => simp [hid]
    | some item => cases item <;> simp [hid]

theorem addJob_fails (h : db.hashAt (job.id lib) = none) : (addJob lib db job).2 = db := by
  rw [addJob_eq, h]

theorem addJob_collides (hhash : db.hashAt (job.id lib) = some fields) (h : Collides lib db job) :
    addJob lib db job = ((job.id lib, some addFailed),
      Function.update db (job.id lib) (some (.hash (merged lib (job.named lib) fields)))) := by
  rw [collides_iff (merged lib (job.named lib) fields)] at h
  have hself := sadd_eq_self h
  rw [addJob_eq, hhash]
  dsimp only
  generalize Db.sadd _ _ _ = r at h hself ⊢
  obtain ⟨reply, db'⟩ := r
  cases hself
  split
  · next heq =>
      cases heq
      exact absurd ⟨_, rfl⟩ h
  · next heq =>
      cases heq
      rfl

def withJob (lib : Library) (job : JobEntity) (fields : Hash) (db : Db) : Db :=
  Function.update (Function.update db (job.id lib) (some (.hash (merged lib (job.named lib) fields))))
    jobKeysSet (some (.set (insert (job.id lib) (jobs db))))

theorem addJob_added (hhash : db.hashAt (job.id lib) = some fields) (h : ¬ Collides lib db job) :
    addJob lib db job = ((job.id lib, none), withJob lib job fields db) := by
  have hne : jobKeysSet ≠ job.id lib := fun hid => h (.inl hid.symm)
  have hadd := h
  rw [collides_iff (merged lib (job.named lib) fields), not_not] at hadd
  obtain ⟨db', hadd⟩ := hadd
  have hdb' : db' = withJob lib job fields db := by
    rw [Db.sadd, Function.update_of_ne hne] at hadd
    rw [withJob, jobs]
    cases hset : db jobKeysSet with
    | none =>
        rw [hset] at hadd
        exact (congrArg Prod.snd hadd).symm
    | some item =>
        rw [hset] at hadd
        cases item with
        | hash _ => cases hadd
        | set _ => exact (congrArg Prod.snd hadd).symm
        | other => cases hadd
  rw [addJob_eq, hhash]
  dsimp only
  rw [hadd, hdb']
  rfl

theorem withJob_id (h : jobKeysSet ≠ job.id lib) : withJob lib job fields db (job.id lib) =
    some (.hash (merged lib (job.named lib) fields)) :=
  (Function.update_of_ne h.symm _ _).trans (Function.update_self _ _ _)

theorem withJob_jobKeysSet {j : JobEntity} : withJob lib j fields db jobKeysSet =
    some (.set (insert (j.id lib) (jobs db))) := Function.update_self _ _ _

theorem atomicOnFailure_of_collides (hhash : db.hashAt (job.id lib) = some fields)
    (h : Collides lib db job) : AtomicOnFailure lib db job ↔
      some (.hash (merged lib (job.named lib) fields)) = db (job.id lib) := by
  rw [AtomicOnFailure, addJob_collides hhash h]
  simp only [ne_eq, reduceCtorEq, not_false_eq_true, forall_const]
  constructor
  · intro h
    rw [← h, Function.update_self]
  · intro h
    rw [h, Function.update_eq_self]

/-- A failed `AddJob` is atomic unless the identifier is refused and a field of the job
is new. -/
theorem addJob_atomic_iff (lib : Library) (db : Db) (job : JobEntity) :
    AtomicOnFailure lib db job ↔ ¬ (Collides lib db job ∧ Changes lib db job) := by
  cases hhash : db.hashAt (job.id lib) with
  | none =>
      have hatomic : AtomicOnFailure lib db job := fun _ => addJob_fails hhash
      have hchanges : ¬ Changes lib db job := by
        rintro ⟨fields, hfields, -⟩
        rw [hhash] at hfields
        cases hfields
      exact iff_of_true hatomic fun h => hchanges h.2
  | some fields =>
      by_cases hcollides : Collides lib db job
      · have hchanges : Changes lib db job ↔ db (job.id lib) = none ∨
            ∃ field value, (job.named lib).Writes field value ∧ fields field ≠ some value := by
          constructor
          · rintro ⟨fields', hfields, h⟩
            rw [hhash] at hfields
            cases hfields
            exact h
          · exact fun h => ⟨fields, hhash, h⟩
        rw [atomicOnFailure_of_collides hhash hcollides, hchanges]
        rcases hashAt_eq_some.mp hhash with ⟨hnone, -⟩ | hsome
        · simp [hnone, hcollides]
        · simp only [hsome, hcollides, Option.some.injEq, Item.hash.injEq, merged_eq_self,
            reduceCtorEq, false_or, true_and, not_exists, not_and, not_not]
      · have hadded := addJob_added hhash hcollides
        have hatomic : AtomicOnFailure lib db job := by
          intro h
          rw [hadded] at h
          exact absurd rfl h
        exact iff_of_true hatomic fun h => hcollides h.1

noncomputable def Library.plain : Library where
  order l := l
  order_perm _ := .refl _
  members := Finset.toList
  members_nodup := Finset.nodup_toList
  mem_members _ _ := Finset.mem_toList
  newString := bytes "new"

def plainJob (name : Bytes) : JobEntity := { JobEntity.zero with jobId := bytes "a", name := name }

noncomputable def plainDb : Db := (addJob .plain (fun _ => none) (plainJob (bytes "first"))).2

noncomputable def plainHash : Hash :=
  merged .plain (JobEntity.named .plain (plainJob (bytes "first"))) fun _ => none

theorem addJob_first (h : jobKeysSet ≠ job.id lib) :
    addJob lib (fun _ => none) job =
      ((job.id lib, none), withJob lib job (fun _ => none) fun _ => none) := by
  have hfresh : ¬ Collides lib (fun _ => none) job := by
    rintro (heq | ⟨item, hitem, -⟩)
    · exact h heq.symm
    · cases hitem
  exact addJob_added rfl hfresh

theorem plainJob_id (name : Bytes) : jobKeysSet ≠ JobEntity.id .plain (plainJob name) :=
  show jobKeysSet ≠ bytes "a" by decide

theorem plainDb_eq : plainDb = withJob .plain (plainJob (bytes "first")) (fun _ => none) fun _ => none :=
  congrArg Prod.snd (addJob_first (plainJob_id _))

theorem plainDb_job : plainDb (bytes "a") = some (.hash plainHash) := by
  rw [plainDb_eq]
  exact withJob_id (plainJob_id (bytes "first"))

theorem plainDb_jobKeysSet : plainDb jobKeysSet = some (.set {bytes "a"}) := by
  rw [plainDb_eq]
  exact withJob_jobKeysSet (j := plainJob (bytes "first"))

/-- Of two jobs with one identifier the second fails, and the first has its name. -/
theorem not_addJob_atomic : ¬ AtomicOnFailure .plain plainDb (plainJob (bytes "second")) := by
  have hname (name : Bytes) (hne : name ≠ []) :
      (JobEntity.named .plain (plainJob name)).Writes Field.name name :=
    writes_omitEmpty List.mem_cons_self hne
  have hid : JobEntity.id .plain (plainJob (bytes "second")) = bytes "a" := rfl
  have hcollides : Collides .plain plainDb (plainJob (bytes "second")) := by
    refine .inr ⟨_, plainDb_jobKeysSet, fun members hmembers => ?_⟩
    cases hmembers
    exact Finset.mem_singleton_self _
  rw [atomicOnFailure_of_collides (hashAt_eq_some.mpr (.inr plainDb_job)) hcollides, hid, plainDb_job]
  intro hsame
  have hwritten := merged_eq_self.mp (Item.hash.inj (Option.some.inj hsame)) _ _
    (hname (bytes "second") (by decide))
  rw [plainHash, merged_of_writes (hname (bytes "first") (by decide))] at hwritten
  exact absurd hwritten (by decide)

/-- The types that updates have, whether decoded or built. -/
def Value.Supplied : Value → Prop
  | .string _ | .uint8 _ | .float64 _ | .bool _ | .time _ => True
  | _ => False

def updateFields : List Bytes :=
  [Field.name, Field.execType, Field.cron, Field.description, Field.execAt, Field.script,
    Field.state, Field.lastExecTime]

structure Update where
  entries : List (Bytes × Value)
  nodup : (entries.map Prod.fst).Nodup
  keys : ∀ k ∈ entries.map Prod.fst, k ∈ updateFields
  supplied : ∀ p ∈ entries, p.2.Supplied

/-- Which texts read back as a value. Strings, numbers of a byte and times have just one, and
what the others have is left open. -/
structure Reading where
  reads : Value → Bytes → Prop
  reads_iff : ∀ v value, updateText v = some value → ∀ text, reads v text ↔ text = value

def Exact (reading : Reading) (update : Update) (fields fields' : Hash) : Prop :=
  (∀ p ∈ update.entries, ∃ text, fields' p.1 = some text ∧ reading.reads p.2 text) ∧
    ∀ k, k ∉ update.entries.map Prod.fst → fields' k = fields k

/-- Nothing is ignored that is not in the hash already, and the empty field, which stands for
what is ignored, is there too. -/
def Unneeded (reading : Reading) (update : Update) (fields : Hash) : Prop :=
  ∀ p ∈ update.entries, updateText p.2 = none →
    (∃ text, fields p.1 = some text ∧ reading.reads p.2 text) ∧ fields [] = some []

section

variable {reading : Reading} {update : Update}

def updated (lib : Library) (update : Update) (fields : Hash) : Hash :=
  Db.putFields fields (fillArgs updateText (lib.order update.entries))

theorem updateJob_eq (hid : jobId ≠ []) (h : db jobId = some (.hash fields)) :
    updateJob lib db jobId update.entries =
      if update.entries = [] then (some addFailed, db)
      else (none, Function.update db jobId (some (.hash (updated lib update fields)))) := by
  have hkeys : update.entries.filter (fun p => p.1 ≠ Field.jobId) = update.entries := by
    apply List.filter_eq_self.mpr
    intro p hp
    have hmem := update.keys p.1 (List.mem_map_of_mem hp)
    have hne : ∀ k ∈ updateFields, k ≠ Field.jobId := by decide
    exact decide_eq_true (hne _ hmem)
  have hupdateJob : updateJob lib db jobId update.entries =
      let r := db.hmset (jobId :: fillArgs updateText
        (lib.order (update.entries.filter fun p => p.1 ≠ Field.jobId)))
      if isOKReply r.1 then (none, r.2) else (some addFailed, r.2) := by
    rw [updateJob, if_neg hid]
  have hperm := lib.order_perm update.entries
  rw [hupdateJob, hkeys]
  split
  · next hnil =>
      rw [hnil] at hperm ⊢
      rw [List.perm_nil.mp hperm]
      rfl
  · next hne =>
      have horder : lib.order update.entries ≠ [] := by
        intro hnil
        rw [hnil] at hperm
        exact hne (List.nil_perm.mp hperm)
      rw [hmset_fillArgs horder, hashAt_eq_some.mpr (.inr h)]
      rfl

theorem updated_of_ne {k : Bytes} (h : k ≠ []) : updated lib update fields k =
    putPairs fields (pairs updateText (lib.order update.entries)) k := by
  rw [updated, putFields_fillArgs]
  split
  · rfl
  · exact Function.update_of_ne h _ _

theorem ne_nil_of_mem {p : Bytes × Value} (h : p ∈ update.entries) : p.1 ≠ [] := by
  have hmem := update.keys p.1 (List.mem_map_of_mem h)
  have hne : ∀ k ∈ updateFields, k ≠ [] := by decide
  exact hne _ hmem

theorem updated_of_text {p : Bytes × Value} {value : Bytes} (h : p ∈ update.entries)
    (htext : updateText p.2 = some value) : updated lib update fields p.1 = some value := by
  rw [updated_of_ne (ne_nil_of_mem h)]
  apply putPairs_of_mem ((pairs_keys _ _).nodup (order_keys_nodup update.nodup))
  exact mem_pairs.mpr ⟨p.2, (lib.order_perm _).mem_iff.mpr h, htext⟩

/-- No other value has the key of a pair. -/
theorem updated_of_forall {k : Bytes} (hne : k ≠ [])
    (h : ∀ p ∈ update.entries, p.1 = k → updateText p.2 = none) :
    updated lib update fields k = fields k := by
  rw [updated_of_ne hne]
  apply putPairs_of_not_mem
  intro hmem
  obtain ⟨⟨k, value⟩, hpair, rfl⟩ := List.mem_map.mp hmem
  obtain ⟨v, hv, htext⟩ := mem_pairs.mp hpair
  rw [h (k, v) ((lib.order_perm _).mem_iff.mp hv) rfl] at htext
  cases htext

theorem updated_of_ignored {p : Bytes × Value} (h : p ∈ update.entries)
    (htext : updateText p.2 = none) : updated lib update fields p.1 = fields p.1 := by
  apply updated_of_forall (ne_nil_of_mem h)
  intro q hq hkey
  rw [List.inj_on_of_nodup_map update.nodup hq h hkey, htext]

theorem length_pairs_lt {text : Value → Option Bytes} {mp : List (Bytes × Value)} :
    (pairs text mp).length < mp.length ↔ ∃ p ∈ mp, text p.2 = none := by
  constructor
  · intro h
    by_contra hall
    refine h.ne (length_pairs_eq fun p hp => ?_)
    refine Option.isSome_iff_ne_none.mpr fun hnone => hall ⟨p, hp, hnone⟩
  · rintro ⟨p, hp, hnone⟩
    rw [pairs, List.length_filterMap_eq_countP, List.countP_lt_length_iff]
    exact ⟨p, hp, by simp [hnone]⟩

theorem updated_nil : updated lib update fields [] =
    if ∃ p ∈ update.entries, updateText p.2 = none then some [] else fields [] := by
  have hperm := lib.order_perm update.entries
  have hput : putPairs fields (pairs updateText (lib.order update.entries)) [] = fields [] := by
    apply putPairs_of_not_mem
    intro hmem
    obtain ⟨⟨k, value⟩, hpair, hk⟩ := List.mem_map.mp hmem
    obtain ⟨v, hv, -⟩ := mem_pairs.mp hpair
    exact ne_nil_of_mem (hperm.mem_iff.mp hv) hk
  have hlen : (pairs updateText (lib.order update.entries)).length < (lib.order update.entries).length ↔
      ∃ p ∈ lib.order update.entries, updateText p.2 = none := length_pairs_lt
  simp only [hperm.mem_iff] at hlen
  rw [updated, putFields_fillArgs]
  split
  · next hzero =>
      rw [if_neg, hput]
      rw [← hlen]
      omega
  · next hpos =>
      rw [if_pos, Function.update_self]
      rw [← hlen]
      omega

theorem exact_updated_iff : Exact reading update fields (updated lib update fields) ↔
    Unneeded reading update fields := by
  have hnil : [] ∉ update.entries.map Prod.fst := by
    intro hmem
    obtain ⟨p, hp, hk⟩ := List.mem_map.mp hmem
    exact ne_nil_of_mem hp hk
  constructor
  · rintro ⟨hsupplied, hframe⟩ p hp htext
    obtain ⟨text, hread, hreads⟩ := hsupplied p hp
    rw [updated_of_ignored hp htext] at hread
    have hempty := hframe [] hnil
    rw [updated_nil, if_pos ⟨p, hp, htext⟩] at hempty
    exact ⟨⟨text, hread, hreads⟩, hempty.symm⟩
  · intro h
    refine ⟨fun p hp => ?_, fun k hk => ?_⟩
    · cases htext : updateText p.2 with
      | none =>
          rw [updated_of_ignored hp htext]
          exact (h p hp htext).1
      | some value =>
          exact ⟨value, updated_of_text hp htext, (reading.reads_iff p.2 value htext value).mpr rfl⟩
    · by_cases hempty : k = []
      · subst hempty
        rw [updated_nil]
        split
        · next hignored =>
            obtain ⟨p, hp, htext⟩ := hignored
            exact (h p hp htext).2.symm
        · rfl
      · exact updated_of_forall hempty fun p hp hkey => absurd (hkey ▸ List.mem_map_of_mem hp) hk

def UpdatesExactly (reading : Reading) (lib : Library) (db : Db) (jobId : Bytes) (fields : Hash)
    (update : Update) : Prop :=
  (updateJob lib db jobId update.entries).1 = none →
    ∃ fields', (updateJob lib db jobId update.entries).2 jobId = some (.hash fields') ∧
      Exact reading update fields fields'

theorem updatesExactly_of_ne_nil (hid : jobId ≠ []) (h : db jobId = some (.hash fields))
    (hne : update.entries ≠ []) : UpdatesExactly reading lib db jobId fields update ↔
      Unneeded reading update fields := by
  rw [UpdatesExactly, updateJob_eq hid h, if_neg hne]
  simp only [Function.update_self, Option.some.injEq, Item.hash.injEq, exists_eq_left', forall_const,
    exact_updated_iff]

/-- An update that succeeds is exact if and only if it ignores nothing that is needed. -/
theorem updateJob_exact_iff (reading : Reading) (lib : Library) (db : Db) (jobId : Bytes)
    (fields : Hash) (update : Update) (h : db jobId = some (.hash fields)) :
    UpdatesExactly reading lib db jobId fields update ↔
      jobId = [] ∨ Unneeded reading update fields := by
  by_cases hid : jobId = []
  · refine iff_of_true (fun hok => ?_) (.inl hid)
    rw [updateJob, if_pos hid] at hok
    cases hok
  · by_cases hne : update.entries = []
    · refine iff_of_true (fun hok => ?_) (.inr fun p hp => ?_)
      · rw [updateJob_eq hid h, if_pos hne] at hok
        cases hok
      · rw [hne] at hp
        cases hp
    · rw [updatesExactly_of_ne_nil hid h hne, or_iff_right hid]

end

def Reading.plain : Reading where
  reads v text :=
    match updateText v, v with
    | some value, _ => text = value
    | none, .float64 x => ∃ n, parseUint 64 text = some n ∧ x = n
    | none, .bool b => text = bytes (if b then "true" else "false")
    | none, _ => False
  reads_iff v value h text := by
    rw [h]

def plainUpdate (k : Bytes) (hk : k ∈ updateFields) (v : Value) (hv : v.Supplied) : Update where
  entries := [(k, v)]
  nodup := List.nodup_singleton k
  keys := by simpa using hk
  supplied := by simpa using hv

/-- A name is written exactly. -/
theorem updateJob_exact_name : UpdatesExactly .plain .plain plainDb (bytes "a") plainHash
    (plainUpdate Field.name (by decide) (.string (bytes "second")) trivial) := by
  refine (updateJob_exact_iff .plain .plain plainDb (bytes "a") plainHash
    (plainUpdate Field.name (by decide) (.string (bytes "second")) trivial) plainDb_job).mpr
    (.inr fun p hp htext => ?_)
  rw [List.mem_singleton.mp hp] at htext
  cases htext

/-- A number does not get into the store, and an empty field does. -/
theorem not_updateJob_exact : ¬ UpdatesExactly .plain .plain plainDb (bytes "a") plainHash
    (plainUpdate Field.execType (by decide) (.float64 1) trivial) := by
  rw [updatesExactly_of_ne_nil (by decide) plainDb_job (List.cons_ne_nil _ _)]
  intro h
  have hempty := (h _ (List.mem_singleton_self _) rfl).2
  rw [plainHash, merged_of_not_writes] at hempty
  · cases hempty
  · rintro value ⟨v, hmem, -⟩
    have hkeys : ([] : Bytes) ∈ (structsFields (JobEntity.named .plain
      (plainJob (bytes "first")))).map Prod.fst := List.mem_map_of_mem hmem
    revert hkeys
    decide

end Traitor.LocalDb
