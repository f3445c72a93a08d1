import Traitor.Database
import Traitor.ExpiryWheel
import Traitor.Schedule

namespace Traitor.ActiveExpiry

open Lib.Deadlines TimeWheel ExpiryWheel Database

def genExpireTask (key : Bytes) : Bytes := bytes "expire:" ++ key

/-- The databases of the process, which share one wheel. The closure of a task is the database
and the key that it is about. -/
structure Server (σ : Type) (n : Nat) where
  dbs : Nat → DB σ
  wheel : Wheel n
  jobs : Nat → Nat × Bytes
  ticks : Nat

/-- What is done to a key of a database. `access` is the test whether the key is expired, and
each tick comes with the time until each of its tasks reads the clock. -/
inductive Action (σ : Type)
  | expire (db : Nat) (now : Int) (key : Bytes) (expireTime : Int)
  | persist (db : Nat) (key : Bytes)
  | remove (db : Nat) (key : Bytes)
  | put (db : Nat) (key : Bytes) (entity : Entity σ)
  | access (db : Nat) (now : Int) (key : Bytes)
  | tick (lag : Nat → Nat)

variable {σ : Type} {n : Nat}

def passed (db : DB σ) (now : Int) (key : Bytes) : Bool :=
  match db.ttlMap.lookup key with
  | none => false
  | some expireTime => expireTime < now

namespace Server

def init (dbs : Nat → DB σ) (n : Nat) [NeZero n] : Server σ n := ⟨dbs, make second n, fun _ => (0, []), 0⟩

def modify (s : Server σ n) (i : Nat) (f : DB σ → DB σ) : Server σ n :=
  { s with dbs := Function.update s.dbs i (f (s.dbs i)) }

def cancel (s : Server σ n) (key : Bytes) : Server σ n :=
  if key = [] then s else { s with wheel := TimeWheel.removeTask s.wheel key }

def persist (s : Server σ n) (i : Nat) (key : Bytes) : Server σ n :=
  (s.modify i (·.persist key)).cancel (genExpireTask key)

def remove (s : Server σ n) (i : Nat) (key : Bytes) : Server σ n :=
  (s.modify i (·.remove key)).cancel (genExpireTask key)

/-- Also what the closure of a task does under the lock of its key. -/
def isExpired (s : Server σ n) (i : Nat) (now : Int) (key : Bytes) : Server σ n :=
  if passed (s.dbs i) now key then s.remove i key else s

def callbacks (now : Nat → Int) (s : Server σ n) (ran : List Nat) : Server σ n :=
  ran.foldl (fun s id => s.isExpired (s.jobs id).1 (now id) (s.jobs id).2) s

variable [NeZero n]

def addJob (s : Server σ n) (delay : Int) (key : Bytes) (job : Nat × Bytes) : Option (Server σ n) :=
  if delay < 0 then some s
  else (ExpiryWheel.addTask s.wheel ⟨delay.toNat, key⟩).map fun w =>
    { s with wheel := w, jobs := Function.update s.jobs s.wheel.nextId job }

def exeAt (s : Server σ n) (now t : Int) (key : Bytes) (job : Nat × Bytes) : Option (Server σ n) :=
  s.addJob (Schedule.sub t now) key job

def expire (s : Server σ n) (i : Nat) (now : Int) (key : Bytes) (expireTime : Int) :
    Option (Server σ n) :=
  (s.modify i (·.expire key expireTime)).exeAt now expireTime (genExpireTask key) (i, key)

def tick (start : Int) (s : Server σ n) (lag : Nat → Nat) : Option (Server σ n) :=
  (TimeWheel.tick forgets s.wheel).map fun ticked =>
    callbacks (fun id => instant start s.ticks + lag id)
      { s with wheel := ticked.1, ticks := s.ticks + 1 } (ticked.2.map Element.id)

def step (start : Int) (s : Server σ n) : Action σ → Option (Server σ n)
  | .expire i now key expireTime => s.expire i now key expireTime
  | .persist i key => some (s.persist i key)
  | .remove i key => some (s.remove i key)
  | .put i key entity => some (s.modify i (·.put key entity))
  | .access i now key => some (s.isExpired i now key)
  | .tick lag => s.tick start lag

def run (start : Int) (s : Server σ n) : List (Action σ) → Option (Server σ n)
  | [] => some s
  | a :: as => (s.step start a).bind fun s => run start s as

end Server

def Action.target : Action σ → Option (Nat × Bytes)
  | .expire i _ key _ => some (i, key)
  | .persist i key => some (i, key)
  | .remove i key => some (i, key)
  | .put i key _ => some (i, key)
  | .access i _ key => some (i, key)
  | .tick _ => none

/-- The action takes the task of its key out of the wheel, or another's in its place. -/
def Action.releases (s : Server σ n) : Action σ → Bool
  | .expire _ now _ expireTime => 0 ≤ Schedule.sub expireTime now
  | .persist _ _ => true
  | .remove _ _ => true
  | .put _ _ _ => false
  | .access i now key => passed (s.dbs i) now key
  | .tick _ => false

variable {s s' : Server σ n} {q : State Bytes} {i j : Nat} {key k : Bytes} {x : Int} {id r : Nat}

theorem genExpireTask_ne_nil (key : Bytes) : genExpireTask key ≠ [] := by
  rw [genExpireTask]
  exact List.append_ne_nil_of_left_ne_nil (by decide) _

theorem genExpireTask_inj : genExpireTask key = genExpireTask k ↔ key = k :=
  List.append_right_inj _

def StoresSame (s s' : Server σ n) (i : Nat) (key : Bytes) : Prop :=
  (s'.dbs i).data.lookup key = (s.dbs i).data.lookup key ∧
    (s'.dbs i).ttlMap.lookup key = (s.dbs i).ttlMap.lookup key

def Local (f : DB σ → DB σ) (k : Bytes) : Prop := ∀ db key, key ≠ k →
  (f db).data.lookup key = db.data.lookup key ∧ (f db).ttlMap.lookup key = db.ttlMap.lookup key

theorem local_put (k : Bytes) (entity : Entity σ) : Local (DB.put · k entity) k := fun _ _ hne =>
  ⟨Finmap.lookup_insert_of_ne _ hne, rfl⟩

theorem local_remove (k : Bytes) : Local (σ := σ) (DB.remove · k) k := fun _ _ hne =>
  ⟨Finmap.lookup_erase_ne hne, Finmap.lookup_erase_ne hne⟩

theorem local_expire (k : Bytes) (t : Int) : Local (σ := σ) (DB.expire · k t) k := fun _ _ hne =>
  ⟨rfl, Finmap.lookup_insert_of_ne _ hne⟩

theorem local_persist (k : Bytes) : Local (σ := σ) (DB.persist · k) k := fun _ _ hne =>
  ⟨rfl, Finmap.lookup_erase_ne hne⟩

theorem storesSame_modify {f : DB σ → DB σ} (hf : Local f k) (h : (j, k) ≠ (i, key)) :
    StoresSame s (s.modify j f) i key := by
  rw [StoresSame, Server.modify]
  dsimp only
  by_cases hi : i = j
  · subst hi
    rw [Function.update_self]
    exact hf _ key fun hk => h (by rw [hk])
  · rw [Function.update_of_ne hi]
    exact ⟨rfl, rfl⟩

theorem storesSame_remove (h : (j, k) ≠ (i, key)) : StoresSame s (s.remove j k) i key := by
  have hdb := storesSame_modify (s := s) (local_remove k) h
  rw [Server.remove, Server.cancel, if_neg (genExpireTask_ne_nil k)]
  exact hdb

theorem storesSame_isExpired (now : Int) (h : (j, k) ≠ (i, key)) : StoresSame s (s.isExpired j now k) i key := by
  rw [Server.isExpired]
  split
  · exact storesSame_remove h
  · exact ⟨rfl, rfl⟩

theorem cancel_jobs (s : Server σ n) (key : Bytes) : (s.cancel key).jobs = s.jobs := by
  rw [Server.cancel]
  split <;> rfl

theorem cancel_ticks (s : Server σ n) (key : Bytes) : (s.cancel key).ticks = s.ticks := by
  rw [Server.cancel]
  split <;> rfl

theorem cancel_dbs (s : Server σ n) (key : Bytes) : (s.cancel key).dbs = s.dbs := by
  rw [Server.cancel]
  split <;> rfl

theorem isExpired_jobs (s : Server σ n) (i : Nat) (now : Int) (key : Bytes) :
    (s.isExpired i now key).jobs = s.jobs := by
  rw [Server.isExpired]
  split
  · exact cancel_jobs _ _
  · rfl

theorem isExpired_ticks (s : Server σ n) (i : Nat) (now : Int) (key : Bytes) :
    (s.isExpired i now key).ticks = s.ticks := by
  rw [Server.isExpired]
  split
  · exact cancel_ticks _ _
  · rfl

theorem callbacks_ticks (now : Nat → Int) (s : Server σ n) (ran : List Nat) :
    (s.callbacks now ran).ticks = s.ticks := by
  induction ran generalizing s with
  | nil => rfl
  | cons id ran ih => exact (ih _).trans (isExpired_ticks _ _ _ _)

variable [NeZero n]

/-- The wheel holds the tasks of a queue, each under the name of the key of its closure. -/
structure Sound (s : Server σ n) (q : State Bytes) : Prop where
  wheel : Represents s.wheel q
  jobs : ∀ p ∈ q.pending, p.key = genExpireTask (s.jobs p.id).2

theorem init_sound (dbs : Nat → DB σ) : Sound (Server.init dbs n) State.empty where
  wheel := make_represents
  jobs p hp := by cases hp

theorem Sound.modify (h : Sound s q) (i : Nat) (f : DB σ → DB σ) : Sound (s.modify i f) q :=
  ⟨h.wheel, h.jobs⟩

theorem Sound.cancel (h : Sound s q) (key : Bytes) :
    Sound (s.cancel (genExpireTask key)) (q.remove (genExpireTask key)) := by
  rw [Server.cancel, if_neg (genExpireTask_ne_nil key)]
  exact ⟨h.wheel.remove (genExpireTask_ne_nil key), fun p hp => h.jobs p (List.mem_filter.mp hp).1⟩

theorem Sound.addJob (h : Sound s q) (delay : Nat) (i : Nat) (key : Bytes) :
    ∃ w, ExpiryWheel.addTask s.wheel ⟨delay, genExpireTask key⟩ = some w ∧
      Sound { s with wheel := w, jobs := Function.update s.jobs s.wheel.nextId (i, key) }
        (q.add [] (genExpireTask key) (seconds delay)) := by
  obtain ⟨w, hadd, hw⟩ := h.wheel.add (genExpireTask key) (seconds delay)
  rw [ExpiryWheel.addTask, ← addTask_seconds] at hadd
  refine ⟨w, hadd, hw, fun p hp => ?_⟩
  rw [h.wheel.nextId]
  rcases List.mem_append.mp hp with hp | hp
  · have hmem := (List.mem_filter.mp hp).1
    have hne : p.id ≠ q.next := Nat.ne_of_lt (h.wheel.valid.ids_lt p hmem)
    dsimp only
    rw [Function.update_of_ne hne]
    exact h.jobs p hmem
  · obtain rfl := List.mem_singleton.mp hp
    dsimp only
    rw [Function.update_self]

theorem Sound.remove (h : Sound s q) (j : Nat) (k : Bytes) :
    Sound (s.remove j k) (q.remove (genExpireTask k)) := (h.modify j _).cancel k

/-- What becomes of the tasks: nothing, or the task of the key leaves, or another is in its place. -/
inductive Effect (s : Server σ n) (q : State Bytes) (j : Nat) (k : Bytes) (s' : Server σ n) :
    Bool → State Bytes → Prop
  | none (hjobs : s'.jobs = s.jobs) : Effect s q j k s' false q
  | remove (hjobs : s'.jobs = s.jobs) : Effect s q j k s' true (q.remove (genExpireTask k))
  | add (d : Nat) (hjobs : s'.jobs = Function.update s.jobs q.next (j, k)) :
      Effect s q j k s' true (q.add [] (genExpireTask k) d)

theorem Sound.step (h : Sound s q) (start : Int) {a : Action σ} (ha : a.target = some (j, k)) :
    ∃ s' q', s.step start a = some s' ∧ Sound s' q' ∧ s'.ticks = s.ticks ∧
      (∀ i key, (j, k) ≠ (i, key) → StoresSame s s' i key) ∧ Effect s q j k s' (a.releases s) q' := by
  cases a with
  | expire i now key expireTime =>
      obtain ⟨rfl, rfl⟩ := Prod.mk.inj (Option.some.inj ha)
      have hdb (i' : Nat) (key' : Bytes) (hne : (i, key) ≠ (i', key')) :
          StoresSame s (s.modify i (·.expire key expireTime)) i' key' :=
        storesSame_modify (local_expire key expireTime) hne
      rw [Server.step, Server.expire, Server.exeAt, Server.addJob, Action.releases]
      by_cases hdelay : Schedule.sub expireTime now < 0
      · rw [if_pos hdelay, decide_eq_false (by omega)]
        exact ⟨_, q, rfl, h.modify i _, rfl, hdb, .none rfl⟩
      · rw [if_neg hdelay, decide_eq_true (by omega)]
        obtain ⟨w, hadd, hw⟩ := (h.modify i (·.expire key expireTime)).addJob
          (Schedule.sub expireTime now).toNat i key
        rw [hadd]
        refine ⟨_, _, rfl, hw, rfl, hdb, .add _ ?_⟩
        rw [← h.wheel.nextId]
        rfl
  | persist i key =>
      obtain ⟨rfl, rfl⟩ := Prod.mk.inj (Option.some.inj ha)
      refine ⟨_, _, rfl, (h.modify i _).cancel key, cancel_ticks _ _, fun i' key' hne => ?_,
        .remove (cancel_jobs _ _)⟩
      have hdb := storesSame_modify (s := s) (local_persist key) hne
      rw [StoresSame, Server.persist, cancel_dbs]
      exact hdb
  | remove i key =>
      obtain ⟨rfl, rfl⟩ := Prod.mk.inj (Option.some.inj ha)
      exact ⟨_, _, rfl, h.remove i key, cancel_ticks _ _, fun i' key' hne => storesSame_remove hne,
        .remove (cancel_jobs _ _)⟩
  | put i key entity =>
      obtain ⟨rfl, rfl⟩ := Prod.mk.inj (Option.some.inj ha)
      exact ⟨_, _, rfl, h.modify i _, rfl, fun i' key' hne => storesSame_modify (local_put key entity) hne,
        .none rfl⟩
  | access i now key =>
      obtain ⟨rfl, rfl⟩ := Prod.mk.inj (Option.some.inj ha)
      rw [Server.step, Action.releases]
      cases hpassed : passed (s.dbs i) now key with
      | false =>
          have hstays : s.isExpired i now key = s := by rw [Server.isExpired, hpassed]; rfl
          exact ⟨_, q, rfl, hstays.symm ▸ h, by rw [hstays],
            fun i' key' hne => storesSame_isExpired now hne, .none (by rw [hstays])⟩
      | true =>
          have hgoes : s.isExpired i now key = s.remove i key := by
            rw [Server.isExpired, hpassed]
            rfl
          exact ⟨_, _, rfl, hgoes.symm ▸ h.remove i key, by rw [hgoes]; exact cancel_ticks _ _,
            fun i' key' hne => storesSame_isExpired now hne, .remove (by rw [hgoes]; exact cancel_jobs _ _)⟩
  | tick lag => cases ha

/-- The key has a task that waits for `r` ticks more, and an expiry time. -/
structure Tracked (s : Server σ n) (q : State Bytes) (i : Nat) (key : Bytes) (x : Int) (id r : Nat) :
    Prop where
  sound : Sound s q
  mem : ⟨id, genExpireTask key, r⟩ ∈ q.pending
  owner : s.jobs id = (i, key)
  ttl : (s.dbs i).ttlMap.lookup key = some x

/-- The key has an expiry time, and no task. -/
structure Lost (s : Server σ n) (q : State Bytes) (i : Nat) (key : Bytes) (x : Int) : Prop where
  sound : Sound s q
  free : ∀ p ∈ q.pending, s.jobs p.id ≠ (i, key)
  ttl : (s.dbs i).ttlMap.lookup key = some x

structure Gone (s : Server σ n) (q : State Bytes) (i : Nat) (key : Bytes) : Prop where
  sound : Sound s q
  data : (s.dbs i).data.lookup key = none
  ttl : (s.dbs i).ttlMap.lookup key = none

theorem Tracked.step (h : Tracked s q i key x id r) (start : Int) {a : Action σ}
    (ha : a.target = some (j, k)) (hother : (j, k) ≠ (i, key))
    (hstays : ¬ (k = key ∧ a.releases s = true)) :
    ∃ s' q', s.step start a = some s' ∧ s'.ticks = s.ticks ∧ Tracked s' q' i key x id r := by
  obtain ⟨s', q', hstep, hsound, hticks, hsame, heffect⟩ := h.sound.step start ha
  have httl := (hsame i key hother).2.trans h.ttl
  have hid : id < q.next := h.sound.wheel.valid.ids_lt _ h.mem
  refine ⟨s', q', hstep, hticks, ?_⟩
  generalize a.releases s = b at heffect hstays
  cases heffect with
  | none hjobs => exact ⟨hsound, h.mem, hjobs ▸ h.owner, httl⟩
  | remove hjobs =>
      have hk : ¬ genExpireTask key = genExpireTask k := fun he =>
        hstays ⟨(genExpireTask_inj.mp he).symm, rfl⟩
      exact ⟨hsound, List.mem_filter.mpr ⟨h.mem, decide_eq_true hk⟩, hjobs ▸ h.owner, httl⟩
  | add d hjobs =>
      have hk : ¬ Replaced [] (genExpireTask k) ⟨id, genExpireTask key, r⟩ := fun he =>
        hstays ⟨(genExpireTask_inj.mp he.1).symm, rfl⟩
      refine ⟨hsound, List.mem_append_left _ (List.mem_filter.mpr ⟨h.mem, decide_eq_true hk⟩), ?_, httl⟩
      rw [hjobs, Function.update_of_ne (Nat.ne_of_lt hid)]
      exact h.owner

/-- Another database has cancelled or replaced the task, which is under the same name. -/
theorem Tracked.release (h : Tracked s q i key x id r) (start : Int) {a : Action σ}
    (ha : a.target = some (j, key)) (hother : (j, key) ≠ (i, key)) (hreleases : a.releases s = true) :
    ∃ s' q', s.step start a = some s' ∧ s'.ticks = s.ticks ∧ Lost s' q' i key x := by
  obtain ⟨s', q', hstep, hsound, hticks, hsame, heffect⟩ := h.sound.step start ha
  have httl := (hsame i key hother).2.trans h.ttl
  refine ⟨s', q', hstep, hticks, hsound, ?_, httl⟩
  have hnamed (p : Pending Bytes) (hp : p ∈ q.pending) (hkey : ¬ p.key = genExpireTask key) :
      s.jobs p.id ≠ (i, key) := by
    intro howner
    rw [h.sound.jobs p hp, howner] at hkey
    exact hkey rfl
  rw [hreleases] at heffect
  cases heffect with
  | remove hjobs =>
      intro p hp
      obtain ⟨hmem, hkey⟩ := List.mem_filter.mp hp
      rw [hjobs]
      exact hnamed p hmem (of_decide_eq_true hkey)
  | add d hjobs =>
      intro p hp
      rw [hjobs]
      rcases List.mem_append.mp hp with hp | hp
      · obtain ⟨hmem, hkey⟩ := List.mem_filter.mp hp
        rw [Function.update_of_ne (Nat.ne_of_lt (h.sound.wheel.valid.ids_lt p hmem))]
        apply hnamed p hmem
        intro he
        exact of_decide_eq_true hkey ⟨he, genExpireTask_ne_nil key⟩
      · obtain rfl := List.mem_singleton.mp hp
        rw [Function.update_self]
        exact hother

theorem Lost.step (h : Lost s q i key x) (start : Int) {a : Action σ}
    (ha : a.target = some (j, k)) (hother : (j, k) ≠ (i, key)) :
    ∃ s' q', s.step start a = some s' ∧ s'.ticks = s.ticks ∧ Lost s' q' i key x := by
  obtain ⟨s', q', hstep, hsound, hticks, hsame, heffect⟩ := h.sound.step start ha
  have httl := (hsame i key hother).2.trans h.ttl
  refine ⟨s', q', hstep, hticks, hsound, ?_, httl⟩
  generalize a.releases s = b at heffect
  cases heffect with
  | none hjobs => exact hjobs ▸ h.free
  | remove hjobs =>
      rw [hjobs]
      exact fun p hp => h.free p (List.mem_filter.mp hp).1
  | add d hjobs =>
      intro p hp
      rw [hjobs]
      rcases List.mem_append.mp hp with hp | hp
      · have hmem := (List.mem_filter.mp hp).1
        rw [Function.update_of_ne (Nat.ne_of_lt (h.sound.wheel.valid.ids_lt p hmem))]
        exact h.free p hmem
      · obtain rfl := List.mem_singleton.mp hp
        rw [Function.update_self]
        exact hother

theorem Gone.step (h : Gone s q i key) (start : Int) {a : Action σ}
    (ha : a.target = some (j, k)) (hother : (j, k) ≠ (i, key)) :
    ∃ s' q', s.step start a = some s' ∧ s'.ticks = s.ticks ∧ Gone s' q' i key := by
  obtain ⟨s', q', hstep, hsound, hticks, hsame, -⟩ := h.sound.step start ha
  obtain ⟨hdata, httl⟩ := hsame i key hother
  exact ⟨s', q', hstep, hticks, hsound, hdata.trans h.data, httl.trans h.ttl⟩

/-- The closure of a task does what an access of its key does. -/
theorem step_access (s : Server σ n) (start : Int) (j : Nat) (now : Int) (k : Bytes) :
    s.step start (.access j now k) = some (s.isExpired j now k) := rfl

theorem Tracked.callbacks (h : Tracked s q i key x id r) (now : Nat → Int) (ran : List Nat)
    (hran : ∀ id' ∈ ran, (s.jobs id').2 ≠ key) :
    ∃ q', Tracked (s.callbacks now ran) q' i key x id r := by
  induction ran generalizing s q with
  | nil => exact ⟨q, h⟩
  | cons id' ran ih =>
      have hk := hran id' List.mem_cons_self
      have hother : ((s.jobs id').1, (s.jobs id').2) ≠ (i, key) := fun he => hk (Prod.mk.inj he).2
      obtain ⟨s', q', hstep, -, htracked⟩ := h.step 0
        (a := .access (s.jobs id').1 (now id') (s.jobs id').2) rfl hother fun he => hk he.1
      rw [step_access, Option.some.injEq] at hstep
      subst hstep
      apply ih htracked
      intro id'' hid
      rw [isExpired_jobs]
      exact hran id'' (List.mem_cons_of_mem _ hid)

theorem Lost.callbacks (h : Lost s q i key x) (now : Nat → Int) (ran : List Nat)
    (hran : ∀ id' ∈ ran, s.jobs id' ≠ (i, key)) : ∃ q', Lost (s.callbacks now ran) q' i key x := by
  induction ran generalizing s q with
  | nil => exact ⟨q, h⟩
  | cons id' ran ih =>
      obtain ⟨s', q', hstep, -, hlost⟩ := h.step 0
        (a := .access (s.jobs id').1 (now id') (s.jobs id').2) rfl (hran id' List.mem_cons_self)
      rw [step_access, Option.some.injEq] at hstep
      subst hstep
      apply ih hlost
      intro id'' hid
      rw [isExpired_jobs]
      exact hran id'' (List.mem_cons_of_mem _ hid)

theorem Gone.callbacks (h : Gone s q i key) (now : Nat → Int) (ran : List Nat) :
    ∃ q', Gone (s.callbacks now ran) q' i key := by
  induction ran generalizing s q with
  | nil => exact ⟨q, h⟩
  | cons id' ran ih =>
      by_cases hsame : s.jobs id' = (i, key)
      · have hstays : s.isExpired (s.jobs id').1 (now id') (s.jobs id').2 = s := by
          rw [hsame, Server.isExpired, passed, h.ttl]
          rfl
        have hrest := ih h
        rw [Server.callbacks, List.foldl_cons, hstays]
        exact hrest
      · obtain ⟨s', q', hstep, -, hgone⟩ := h.step 0
          (a := .access (s.jobs id').1 (now id') (s.jobs id').2) rfl hsame
        rw [step_access, Option.some.injEq] at hstep
        subst hstep
        exact ih hgone

/-- A tick of the wheel, before its closures run. -/
theorem Sound.tick (h : Sound s q) (start : Int) (lag : Nat → Nat) :
    ∃ s₁, s.step start (.tick lag) =
        some (s₁.callbacks (fun id => instant start s.ticks + lag id) q.expired) ∧
      Sound s₁ q.tick ∧ s₁.dbs = s.dbs ∧ s₁.jobs = s.jobs ∧ s₁.ticks = s.ticks + 1 := by
  have hforgets (key : Bytes) (hkey : key ≠ []) : forgets key = true := decide_eq_true hkey
  obtain ⟨w, ran, htick, hran, hw⟩ := h.wheel.tick hforgets
  refine ⟨{ s with wheel := w, ticks := s.ticks + 1 }, ?_, ⟨hw, ?_⟩, rfl, rfl, rfl⟩
  · rw [Server.step, Server.tick, htick, Option.map_some, hran]
  · intro p hp
    obtain ⟨p', hp', rfl⟩ := List.mem_map.mp hp
    exact h.jobs p' (List.mem_filter.mp hp').1

/-- The task that is under the name of a key is the only one. -/
theorem Tracked.eq (h : Tracked s q i key x id r) {p : Pending Bytes} (hp : p ∈ q.pending)
    (hkey : (s.jobs p.id).2 = key) : p = ⟨id, genExpireTask key, r⟩ := by
  have hname := h.sound.jobs p hp
  rw [hkey] at hname
  exact h.sound.wheel.unique p hp _ h.mem hname (hname ▸ genExpireTask_ne_nil key)

omit [NeZero n] in
theorem mem_expired {id : Nat} (hid : id ∈ q.expired) : ∃ p ∈ q.pending, p.rem = 0 ∧ p.id = id := by
  obtain ⟨p, hp, rfl⟩ := List.mem_map.mp hid
  obtain ⟨hmem, hrem⟩ := List.mem_filter.mp hp
  exact ⟨p, hmem, of_decide_eq_true hrem, rfl⟩

theorem Tracked.tick (h : Tracked s q i key x id (r + 1)) (start : Int) (lag : Nat → Nat) :
    ∃ s' q', s.step start (.tick lag) = some s' ∧ s'.ticks = s.ticks + 1 ∧
      Tracked s' q' i key x id r := by
  obtain ⟨s₁, hstep, hsound, hdbs, hjobs, hticks⟩ := h.sound.tick start lag
  have hmem : (⟨id, genExpireTask key, r⟩ : Pending Bytes) ∈ q.tick.pending :=
    List.mem_map.mpr ⟨_, List.mem_filter.mpr ⟨h.mem, decide_eq_true (Nat.succ_ne_zero r)⟩, rfl⟩
  have htracked : Tracked s₁ q.tick i key x id r := ⟨hsound, hmem, hjobs ▸ h.owner, hdbs ▸ h.ttl⟩
  have hran : ∀ id' ∈ q.expired, (s₁.jobs id').2 ≠ key := by
    intro id' hid hkey
    obtain ⟨p, hp, hrem, rfl⟩ := mem_expired hid
    rw [hjobs] at hkey
    rw [h.eq hp hkey] at hrem
    exact Nat.succ_ne_zero r hrem
  obtain ⟨q', hq'⟩ := htracked.callbacks (fun id => instant start s.ticks + lag id) q.expired hran
  exact ⟨_, q', hstep, (callbacks_ticks _ _ _).trans hticks, hq'⟩

theorem Lost.tick (h : Lost s q i key x) (start : Int) (lag : Nat → Nat) :
    ∃ s' q', s.step start (.tick lag) = some s' ∧ s'.ticks = s.ticks + 1 ∧ Lost s' q' i key x := by
  obtain ⟨s₁, hstep, hsound, hdbs, hjobs, hticks⟩ := h.sound.tick start lag
  have hlost : Lost s₁ q.tick i key x := by
    refine ⟨hsound, fun p hp => ?_, hdbs ▸ h.ttl⟩
    obtain ⟨p', hp', rfl⟩ := List.mem_map.mp hp
    rw [hjobs]
    exact h.free p' (List.mem_filter.mp hp').1
  have hran : ∀ id' ∈ q.expired, s₁.jobs id' ≠ (i, key) := by
    intro id' hid
    obtain ⟨p, hp, -, rfl⟩ := mem_expired hid
    rw [hjobs]
    exact h.free p hp
  obtain ⟨q', hq'⟩ := hlost.callbacks (fun id => instant start s.ticks + lag id) q.expired hran
  exact ⟨_, q', hstep, (callbacks_ticks _ _ _).trans hticks, hq'⟩

theorem Gone.tick (h : Gone s q i key) (start : Int) (lag : Nat → Nat) :
    ∃ s' q', s.step start (.tick lag) = some s' ∧ s'.ticks = s.ticks + 1 ∧ Gone s' q' i key := by
  obtain ⟨s₁, hstep, hsound, hdbs, -, hticks⟩ := h.sound.tick start lag
  have hgone : Gone s₁ q.tick i key := ⟨hsound, hdbs ▸ h.data, hdbs ▸ h.ttl⟩
  obtain ⟨q', hq'⟩ := hgone.callbacks (fun id => instant start s.ticks + lag id) q.expired
  exact ⟨_, q', hstep, (callbacks_ticks _ _ _).trans hticks, hq'⟩

theorem Lost.callback (h : Lost s q i key x) (now : Int) :
    ∃ q', (x < now ∧ Gone (s.isExpired i now key) q' i key) ∨
      (¬ x < now ∧ Lost (s.isExpired i now key) q' i key x) := by
  have hpassed : passed (s.dbs i) now key = decide (x < now) := by rw [passed, h.ttl]
  rw [Server.isExpired, hpassed]
  by_cases hlate : x < now
  · rw [decide_eq_true hlate, if_pos rfl, Server.remove]
    refine ⟨_, .inl ⟨hlate, (h.sound.modify i _).cancel key, ?_, ?_⟩⟩
    · rw [cancel_dbs, Server.modify]
      dsimp only
      rw [Function.update_self]
      exact Finmap.lookup_erase key _
    · rw [cancel_dbs, Server.modify]
      dsimp only
      rw [Function.update_self]
      exact Finmap.lookup_erase key _
  · rw [decide_eq_false hlate, if_neg Bool.false_ne_true]
    exact ⟨q, .inr ⟨hlate, h⟩⟩

omit [NeZero n] in
theorem callbacks_append (now : Nat → Int) (s : Server σ n) (l l' : List Nat) :
    s.callbacks now (l ++ l') = (s.callbacks now l).callbacks now l' := List.foldl_append

omit [NeZero n] in
theorem callbacks_jobs (now : Nat → Int) (s : Server σ n) (ran : List Nat) :
    (s.callbacks now ran).jobs = s.jobs := by
  induction ran generalizing s with
  | nil => rfl
  | cons id ran ih => exact (ih _).trans (isExpired_jobs _ _ _ _)

/-- The tick that runs the task, which is the last that can take the key away. -/
theorem Tracked.fire (h : Tracked s q i key x id 0) (start : Int) (lag : Nat → Nat) :
    ∃ s' q', s.step start (.tick lag) = some s' ∧ s'.ticks = s.ticks + 1 ∧
      (x < instant start s.ticks + lag id ∧ Gone s' q' i key ∨
        ¬ x < instant start s.ticks + lag id ∧ Lost s' q' i key x) := by
  obtain ⟨s₁, hstep, hsound, hdbs, hjobs, hticks⟩ := h.sound.tick start lag
  have hlost : Lost s₁ q.tick i key x := by
    refine ⟨hsound, fun p hp howner => ?_, hdbs ▸ h.ttl⟩
    obtain ⟨p', hp', rfl⟩ := List.mem_map.mp hp
    obtain ⟨hmem, hrem⟩ := List.mem_filter.mp hp'
    rw [hjobs] at howner
    have hkey : (s.jobs p'.id).2 = key := (Prod.mk.inj howner).2
    rw [h.eq hmem hkey] at hrem
    exact of_decide_eq_true hrem rfl
  have hid : id ∈ q.expired :=
    List.mem_map.mpr ⟨_, List.mem_filter.mpr ⟨h.mem, decide_eq_true rfl⟩, rfl⟩
  have hnodup : q.expired.Nodup := h.sound.wheel.valid.ids_nodup.sublist (List.filter_sublist.map _)
  obtain ⟨pre, post, hsplit⟩ := List.append_of_mem hid
  have hothers : ∀ id' ∈ q.expired, id' ≠ id → s₁.jobs id' ≠ (i, key) := by
    intro id' hmem hne howner
    obtain ⟨p, hp, -, rfl⟩ := mem_expired hmem
    rw [hjobs] at howner
    exact hne (congrArg Pending.id (h.eq hp (Prod.mk.inj howner).2))
  rw [hsplit, List.nodup_append] at hnodup
  obtain ⟨-, hpost, hdisjoint⟩ := hnodup
  have hpre : ∀ id' ∈ pre, s₁.jobs id' ≠ (i, key) := fun id' hmem =>
    hothers id' (hsplit ▸ List.mem_append_left _ hmem) (hdisjoint id' hmem id List.mem_cons_self)
  have hafter : ∀ id' ∈ post, s₁.jobs id' ≠ (i, key) := fun id' hmem =>
    hothers id' (hsplit ▸ List.mem_append_right _ (List.mem_cons_of_mem _ hmem))
      fun he => (List.nodup_cons.mp hpost).1 (he ▸ hmem)
  generalize hnow : (fun id => instant start s.ticks + (lag id : Int)) = now at hstep
  have hreads : now id = instant start s.ticks + lag id := hnow ▸ rfl
  obtain ⟨q₁, hlost₁⟩ := hlost.callbacks now pre hpre
  have howner : (s₁.callbacks now pre).jobs id = (i, key) := by
    rw [callbacks_jobs, hjobs, h.owner]
  obtain ⟨q₂, hfired⟩ := hlost₁.callback (now id)
  have hlast : s₁.callbacks now q.expired =
      ((s₁.callbacks now pre).isExpired i (now id) key).callbacks now post := by
    rw [hsplit, callbacks_append, Server.callbacks, List.foldl_cons, howner]
    rfl
  rw [← hreads]
  rw [hlast] at hstep
  have hcount : (((s₁.callbacks now pre).isExpired i (now id) key).callbacks now post).ticks =
      s.ticks + 1 := by
    rw [callbacks_ticks, isExpired_ticks, callbacks_ticks, hticks]
  rcases hfired with ⟨hlate, hgone⟩ | ⟨hlate, hstays⟩
  · obtain ⟨q₃, hq₃⟩ := hgone.callbacks now post
    exact ⟨_, q₃, hstep, hcount, .inl ⟨hlate, hq₃⟩⟩
  · have hstill : ∀ id' ∈ post,
        ((s₁.callbacks now pre).isExpired i (now id) key).jobs id' ≠ (i, key) := by
      intro id' hmem
      rw [isExpired_jobs, callbacks_jobs]
      exact hafter id' hmem
    obtain ⟨q₃, hq₃⟩ := hstays.callbacks now post hstill
    exact ⟨_, q₃, hstep, hcount, .inr ⟨hlate, hq₃⟩⟩

end Traitor.ActiveExpiry
