import Traitor.RunnableJobs

namespace Traitor.Standalone

open Schedule

variable {lib : Library} {s t u : State} {key : Bytes} {g : Goroutine} {next : Option Point}
  {b : Bool}

/-- The process after its start on a store. It does not load the jobs. -/
def State.start (now : Nat) (store : Store) : State :=
  ⟨now, store, [], none, [], true⟩

def NextInFuture (lib : Library) (now : Nat) (r : Record) : Prop :=
  if r.execType = timingExecute then ∃ t, lib.cron r.cron now = some (some t) ∧ (now : Int) < t
  else ∃ t, lib.timeFormat t = r.execAt ∧ (now : Int) < t

def NeverForgets (lib : Library) (starts : Nat → Store → Prop) (ok : State → Action → Prop) :
    Prop :=
  ∀ now store s, starts now store → Reaches lib ok (.start now store) s → s.alive = true →
    Quiet s → ∀ key, Runs s key → NextInFuture lib s.now (s.store.record key) →
      (∃ job, (key, job) ∈ s.timeWheel) ∨ executions s key ≠ []

def Never (lib : Library) (now : Nat) (r : Record) : Prop :=
  ∀ t, now ≤ t → ¬ NextInFuture lib t r

theorem Never.mono {r : Record} {now now' : Nat} (h : Never lib now r) (hle : now ≤ now') :
    Never lib now' r :=
  fun t ht => h t (Nat.le_trans hle ht)

def Alone (s : State) (a : Action) : Prop :=
  ∀ r, a = .request r → phase s r.jobId = none

def Point.Checks : Point → Prop
  | .create _ _ | .update _ | .updateScript _ => True
  | .start enable => enable = true
  | _ => False

/-- The goroutine ends here and has not handed the job to the wheel: the job to run was
there already, it could not be added, or it is not one to add again. -/
def Point.GivesUp (lib : Library) (s : State) (g : Goroutine) : Point → Prop
  | .sadd runs => runs = true ∧ s.store.jobKeys g.jobId = true
  | .addJob r =>
      match Schedule.addJob lib.cron s.now (Standalone.getJobInfo lib g.jobId r) with
      | .sent _ _ _ => False
      | .panic => ¬ g.kind = .spawned
      | _ => True
  | .executed job =>
      match job with
      | .timing _ => False
      | _ => True
  | _ => False

def Elsewhere (s : State) (g : Goroutine) : Prop :=
  InWheel s g.jobId ∨
    if g.kind = .execution then
      1 < (executions s g.jobId).length ∨ ∃ p, phase s g.jobId = some p ∧ ¬ p.Checks
    else executions s g.jobId ≠ []

/-- No goroutine gives up a job that is to run later. -/
def Remembers (lib : Library) (s : State) (a : Action) : Prop :=
  ∀ i g, a = .move i → s.goroutines[i]? = some g → g.point.GivesUp lib s g → Runs s g.jobId →
    Never lib s.now (s.store.record g.jobId) ∨ Elsewhere s g

def Settles (lib : Library) (now : Nat) (store : Store) : Prop :=
  ∀ key, store.jobKeys key = true → (store.record key).state = runnable →
    Never lib now (store.record key)

/-- The job is in the wheel or being executed, or it is not one to run. -/
def Kept (lib : Library) (s : State) (key : Bytes) : Prop :=
  Runs s key → InWheel s key ∨ executions s key ≠ [] ∨ Never lib s.now (s.store.record key)

def Known (lib : Library) (s : State) (key : Bytes) : Option Point → Prop
  | none | some (.create _ _) | some (.update _) | some (.updateScript _) => Kept lib s key
  | some (.start enable) => enable = true → Kept lib s key
  | some (.sadd runs) => runs = false → ¬ (s.store.record key).state = runnable
  | some (.stateChange state) => ¬ state = runnable → ¬ (s.store.record key).state = runnable
  | some (.cancelJob removes) => removes = false → ¬ (s.store.record key).state = runnable
  | some .del => s.store.jobKeys key = false
  | some (.hmset _ _) | some (.setState _) | some (.updateJob _) | some .srem | some .getJobInfo
  | some (.addJob _) | some (.send _) => True
  | some (.call _) | some (.executed _) => False

theorem Kept.mono (h : Kept lib s key) (job : SameJob key s t) (hnow : s.now ≤ t.now)
    (hheld : InWheel s key ∨ executions s key ≠ [] → InWheel t key ∨ executions t key ≠ []) :
    Kept lib t key := by
  intro hr
  have hs : Runs s key := by
    rw [Runs, ← job.1, ← job.2]
    exact hr
  rw [job.1, ← or_assoc]
  rcases or_assoc.mpr (h hs) with hk | hn
  · exact .inl (hheld hk)
  · exact .inr (hn.mono hnow)

theorem Known.mono {p : Option Point} (h : Known lib s key p) (job : SameJob key s t)
    (hk : (∀ q, p = some q → q.Checks) → Kept lib s key → Kept lib t key) :
    Known lib t key p := by
  obtain ⟨hr, hj⟩ := job
  cases p with
  | none => exact hk (by simp) h
  | some p =>
      cases p with
      | create runs job => exact hk (by rintro q ⟨⟩; trivial) h
      | update change => exact hk (by rintro q ⟨⟩; trivial) h
      | updateScript script => exact hk (by rintro q ⟨⟩; trivial) h
      | start enable => exact fun he => hk (by rintro q ⟨⟩; exact he) (h he)
      | _ => simp_all [Known]

theorem Known.serve (h : Known lib s g.jobId (some g.point)) (hkind : ¬ g.kind = .execution)
    (hm : g.point.GivesUp lib s g → Runs s g.jobId →
      Never lib s.now (s.store.record g.jobId) ∨ Elsewhere s g)
    (hadv : advance lib s g = some (u, next, b)) (halive : u.alive = true)
    (hstore : t.store = u.store) (hwheel : InWheel t g.jobId ↔ InWheel u g.jobId)
    (hnow : t.now = s.now) (hexec : executions t g.jobId = executions s g.jobId) :
    Known lib t g.jobId next := by
  have hstop : ¬ stop = runnable := by decide
  simp only [Standalone.advance] at hadv
  have hkept : (Runs s g.jobId → Never lib s.now (s.store.record g.jobId) ∨ Elsewhere s g) →
      u.store = s.store → (InWheel u g.jobId ↔ InWheel s g.jobId) → Kept lib t g.jobId := by
    grind [Kept, Elsewhere, Runs]
  split at hadv <;> rename_i hp <;> rw [hp] at h hm
  case h_2 runs job =>
    obtain ⟨rfl, rfl, -⟩ := hadv
    rintro rfl
    simp [hstore, addFields, hstop]
  case h_8 script =>
    obtain ⟨rfl, rfl, -⟩ := hadv
    intro hr
    simp only [Runs, hstore, setRecord_record, setRecord_jobKeys, if_true] at hr
    simp only [hwheel, inWheel_setRecord, hexec, hnow, hstore, setRecord_record, if_true]
    exact h hr
  case h_14 r =>
    simp only [Point.GivesUp] at hm
    split at hadv
    · rename_i hadd
      rw [hadd] at hm
      obtain ⟨rfl, rfl, -⟩ := hadv
      refine hkept (hm fun hspawned => ?_) (State.panic_store _ _) (inWheel_panic _)
      rw [hspawned] at halive
      simp [State.panic] at halive
    · rename_i hadd
      rw [hadd] at hm
      obtain ⟨rfl, rfl, -⟩ := hadv
      exact hkept (hm trivial) rfl .rfl
    · rename_i hadd
      rw [hadd] at hm
      obtain ⟨rfl, rfl, -⟩ := hadv
      exact hkept (hm trivial) rfl .rfl
    · obtain ⟨rfl, rfl, -⟩ := hadv
      trivial
  case h_15 job =>
    split at hadv
    · simp at hadv
    · obtain ⟨rfl, rfl, -⟩ := hadv
      exact fun _ => .inl (hwheel.mpr (.inr ⟨job, rfl⟩))
  all_goals grind [Known, Kept, Point.GivesUp, Elsewhere, Runs]

/-- A closure that ends has handed the job to the wheel or given it up. -/
theorem Goroutine.Executing.givesUp (hg : g.Executing) (hadv : advance lib s g = some (u, none, b))
    (hsend : ∀ job, g.point ≠ .send job) : g.point.GivesUp lib s g := by
  obtain ⟨hkind, hp⟩ := hg
  simp only [Standalone.advance] at hadv
  split at hadv <;> grind [Point.GivesUp]

structure Followed (lib : Library) (s : State) (key : Bytes) : Prop extends Calm s key where
  known : s.alive = true → Known lib s key (phase s key)

theorem Followed.start {now : Nat} {store : Store} (h : Settles lib now store) :
    Followed lib (.start now store) key where
  executing := by simp [executions, own, State.start]
  single := by simp [handlers, own, State.start]
  known _ hr := .inr (.inr (h key hr.1 hr.2))

theorem Followed.step {a : Action} {started : Option Bytes} (h : Followed lib s key)
    (hseq : Alone s a) (hm : Remembers lib s a) (hs : step lib s a = some (t, started)) :
    Followed lib t key := by
  obtain ⟨hcalm, hturn⟩ := h.toCalm.step (fun r hr hk => hk ▸ hseq r hr) hs
  have hknown := h.known (step_cases hs).1
  refine ⟨hcalm, fun halive => ?_⟩
  cases hturn with
  | same job hwheel hphase hexec hnow =>
      rw [hphase]
      refine hknown.mono job fun _ hk => hk.mono job hnow ?_
      rw [hwheel, hexec]
      exact id
  | request r ha hk job hwheel hnone hphase hexec hnow =>
      rw [hnone] at hknown
      have hkept : Kept lib t key := by
        apply Kept.mono hknown job (Nat.le_of_eq hnow.symm)
        rw [hwheel, hexec]
        exact id
      rw [hphase]
      cases r with
      | start id enable => exact fun _ => hkept
      | remove id => simp [Known, Request.point]
      | _ => exact hkept
  | fire job hwheel hphase hexec hnow =>
      rw [hphase]
      exact hknown.mono job fun _ hk => hk.mono job (Nat.le_of_eq hnow.symm) fun _ => .inr hexec
  | execute i g u next b ha hi hk hg hadv ht hphase hexec hlen =>
      subst hk
      rw [hphase]
      rcases advance_executing hadv hg with ⟨rfl, hsend, -⟩ | ⟨⟨job, hp⟩, -, -, job', rfl⟩
      · have hjob : SameJob g.jobId u t := by subst ht; exact ⟨rfl, rfl⟩
        have hnow : u.now ≤ t.now := by subst ht; exact Nat.le_refl _
        have hwheel : InWheel t g.jobId ↔ InWheel u g.jobId := by subst ht; exact .rfl
        apply hknown.mono hjob
        intro hchecks hk
        cases next with
        | some p => exact hk.mono hjob hnow fun _ => .inr (hexec (by simp))
        | none =>
            intro hr
            have hs : Runs u g.jobId := by
              rw [Runs, ← hjob.1, ← hjob.2]
              exact hr
            rw [hwheel, hjob.1]
            rcases hm i g ha hi (hg.givesUp hadv hsend) hs with hn | hw | hother
            · exact .inr (.inr (hn.mono hnow))
            · exact .inl hw
            · rw [if_pos hg.1] at hother
              rcases hother with hlt | ⟨p, hp, hnot⟩
              · refine .inr (.inl fun hnil => ?_)
                rw [hnil, List.length_nil] at hlen
                omega
              · exact absurd (hchecks p hp) hnot
      · have hjob : SameJob g.jobId s t := by subst ht; exact ⟨rfl, rfl⟩
        have hnow : s.now ≤ t.now := by subst ht; exact Nat.le_refl _
        refine hknown.mono hjob fun _ hk => hk.mono hjob hnow fun _ => ?_
        rw [ht]
        exact .inl (.inr ⟨job', rfl⟩)
  | serve i g u next b ha hi hk hkind hadv ht hphase hnext hexec =>
      subst hk
      rw [hphase] at hknown
      rw [hnext]
      have hnow := (advance_frame hadv).1
      subst ht
      exact hknown.serve hkind (hm i g ha hi) hadv halive rfl .rfl hnow hexec

theorem Followed.reaches {now : Nat} {store : Store} (hstart : Settles lib now store)
    (h : Reaches lib (fun s a => Alone s a ∧ Remembers lib s a) (.start now store) s) :
    Followed lib s key := by
  induction h with
  | refl => exact .start hstart
  | tail _ hstep ih =>
      obtain ⟨a, started, ⟨hseq, hm⟩, hs⟩ := hstep
      exact ih.step hseq hm hs

/-- A process that starts on a store without jobs to run later, and whose goroutines
give up none, forgets none. -/
theorem neverForgets_remembering (lib : Library) :
    NeverForgets lib (Settles lib) fun s a => Alone s a ∧ Remembers lib s a := by
  intro now store s hstart hr halive hq key hruns hnext
  have hfollowed : Followed lib s key := .reaches hstart hr
  have hknown := hfollowed.known halive
  rw [phase_nil hq.1] at hknown
  rcases hknown hruns with (⟨hj, -⟩ | ⟨job, hin⟩) | hexec | hnever
  · exact .inl hj
  · rw [hq.2] at hin
    simp at hin
  · exact .inr hexec
  · exact absurd hnext (hnever s.now (Nat.le_refl _))

/-- After a restart the wheel is empty, whatever the store holds. -/
theorem not_neverForgets : ¬ ∀ lib, NeverForgets lib (fun _ _ => True) fun _ _ => True := by
  intro h
  let store : Store :=
    ⟨fun _ => ⟨bytes "* * * * *", [], timingExecute, runnable, bytes "x"⟩, fun _ => true⟩
  have hquiet : Quiet (.start 0 store) := ⟨by simp [State.start], rfl⟩
  have hnext : NextInFuture everyMinute 0 (store.record (bytes "job")) :=
    ⟨60 * second, by decide, by decide⟩
  rcases h everyMinute 0 store _ trivial .refl rfl hquiet (bytes "job") ⟨rfl, rfl⟩ hnext with
    ⟨job, hj⟩ | hexec
  · simp [State.start] at hj
  · simp [executions, own, State.start] at hexec

end Traitor.Standalone
